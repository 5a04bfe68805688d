import ComponentDecl.Alias
import ComponentDecl.Module.Edit

/-! # Failures of a pass

    The shapes of a module that end a pass, each with a word for its class, a
    message and, where there is one, a description of the offending node.  Apart
    from them stand the breaks, which no outcome tells of. -/

namespace ComponentDecl

/-- Why a module cannot be restructured. -/
inductive Failure where
  /-- Nothing is exported as the module's own. -/
  | missingDefaultExport
  /-- What is exported is no class. -/
  | exportedNonClass (node : String)
  /-- The exported class has no name. -/
  | unnamedClass (node : String)
  /-- The exported class is not derived from another one. -/
  | missingHeritage (className node : String)
  /-- The base class does not have three type arguments. -/
  | argumentMismatch (className : String) (count : Nat) (node : String)
  /-- The helper variable does not exist. -/
  | missingHelper (helper : String)
  /-- The helper's type lacks a member. -/
  | missingMember (helper : String) (kind : AliasKind) (node : String)
  deriving DecidableEq, Repr

namespace Failure

/-- The word for the class of a failure. -/
def word : Failure → String
  | .missingDefaultExport => "missing_default_export"
  | .exportedNonClass _ | .unnamedClass _ => "default_export_not_class"
  | .missingHeritage _ _ => "missing_heritage_clause"
  | .argumentMismatch _ _ _ => "type_argument_mismatch"
  | .missingHelper _ => "missing_helper_variable"
  | .missingMember _ _ _ => "missing_helper_member"

/-- The wording of a failure. -/
def message : Failure → String
  | .missingDefaultExport => "Module has no default export"
  | .exportedNonClass _ => "Default export is not a class declaration"
  | .unnamedClass _ => "Default exported class has no name"
  | .missingHeritage className _ => "Class \x60" ++ className ++ "\x60 has no extends clause"
  | .argumentMismatch className count _ =>
    "Base type of \x60" ++ className ++ "\x60 has " ++ toString count ++
      " type arguments, expected 3"
  | .missingHelper helper => "Helper variable \x60" ++ helper ++ "\x60 not found"
  | .missingMember helper kind _ =>
    "Helper variable \x60" ++ helper ++ "\x60 has no \x60" ++ kind.member ++ "\x60 member"

/-- The description of the offending node. -/
def node : Failure → Option String
  | .missingDefaultExport | .missingHelper _ => none
  | .exportedNonClass n | .unnamedClass n | .missingHeritage _ n | .argumentMismatch _ _ n
  | .missingMember _ _ n => some n

end Failure

/-! ## Breaks -/

/-- Why a pass breaks off in the middle.  Unlike a failure, a break is not an
    outcome of the pass: nothing is taken back and nothing is reported. -/
inductive Break where
  /-- An edit could not be carried out. -/
  | refusedEdit (e : EditError)
  /-- There is no room for a text as wide as the indentation. -/
  | oversized
  deriving DecidableEq, Repr

/-- The wording of a break. -/
def Break.message : Break → String
  | .refusedEdit e => e.message
  | .oversized => "cannot fit 'int' into an index-sized integer"

/-- What stops a pass. -/
inductive Fault where
  | failure (f : Failure)
  | breaks (b : Break)
  deriving DecidableEq, Repr

end ComponentDecl
