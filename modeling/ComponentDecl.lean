import ComponentDecl.Main
import ComponentDecl.Proofs.Module.Batch
import ComponentDecl.Proofs.Module.Blocks
import ComponentDecl.Proofs.Module.Shift
import ComponentDecl.Proofs.Pass.Atomicity
import ComponentDecl.Proofs.Pass.Classification
import ComponentDecl.Proofs.Pass.Frame
import ComponentDecl.Proofs.Pass.Safety
import ComponentDecl.Proofs.Pass.Names
import ComponentDecl.Proofs.Module.Akin
import ComponentDecl.Proofs.Command.Batch
import ComponentDecl.Proofs.Pass.Repetition
import ComponentDecl.Proofs.Pass.Documentation
import ComponentDecl.Proofs.Pass.Diagnostics
import ComponentDecl.Proofs.Pass.Insensitivity
import ComponentDecl.Proofs.Module.Intersection
import ComponentDecl.Proofs.Module.Spans
import ComponentDecl.Proofs.Pass.Removal
import ComponentDecl.Proofs.Pass.Reattachment
import ComponentDecl.Proofs.DocComment.NormalForm
import ComponentDecl.Proofs.DocComment.EndMarks
import ComponentDecl.Proofs.Raw.Table
import ComponentDecl.Proofs.Settings.Precedence
import ComponentDecl.Proofs.Pass.Policy
import ComponentDecl.Proofs.Pass.Attachment
import ComponentDecl.Proofs.Pass.Modifiers
