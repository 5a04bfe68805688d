import ComponentDecl.Syntax.Node
import ComponentDecl.Syntax.Program
import ComponentDecl.Text.Slice
import ComponentDecl.Text.Utf8

/-! # Declaration modules

    A module is its source bytes together with the syntax tree read from them.
    The two cannot come apart: the tree of a module is always the one that its
    bytes have. -/

namespace ComponentDecl

open Syntax

/-- The syntax tree of source bytes.  Bytes that encode no text are one fault. -/
def readSource (source : List UInt8) : Tree :=
  match Text.decodeChars source with
  | .ok cs => parse cs
  | .error _ => .node none .program [.token none .error []]

/-- A declaration module: where it is kept, its bytes and their tree. -/
structure Module where
  path : Option String
  source : List UInt8
  tree : Tree
  tree_eq : tree = readSource source

namespace Module

/-- The module with given source bytes. -/
def ofSource (path : Option String) (source : List UInt8) : Module :=
  ⟨path, source, readSource source, rfl⟩

/-- The module with a given text. -/
def ofText (path : Option String) (text : String) : Module :=
  ofSource path (Text.encode text)

/-- The same module with other source bytes. -/
def withSource (m : Module) (source : List UInt8) : Module :=
  ofSource m.path source

/-- The text of a module, or why its bytes are none. -/
def text (m : Module) : Except Text.DecodeError String :=
  Text.decode m.source

/-- The node of the whole module. -/
def root (m : Module) : Node := Node.ofProgram m.tree

/-- Holds of a module in which some text could not be read. -/
def hasErrors (m : Module) : Bool := m.tree.hasError

/-- The text between two signed byte offsets. -/
def slice (m : Module) (start stop : Int) : Except Text.DecodeError String :=
  Text.decode (Text.slice m.source start stop)

/-- The number of the line, counted from one, on which a node starts. -/
def lineOf (m : Module) (n : Node) : Nat :=
  (m.source.take n.start).count 0x0a + 1

/-- A short description of a node: its type, its line and the head of its
    text. -/
def describe (m : Module) (n : Node) (limit : Int) : String :=
  s!"{n.typeName} at line {m.lineOf n}: {Text.headLine limit n.text}"

/-- The description of a node in a message. -/
def mention (m : Module) (n : Node) : String := m.describe n 80

/-- Why a module cannot be kept. -/
inductive SaveError where
  /-- No path is known. -/
  | noPath
  deriving DecidableEq, Repr

/-- The wording of a save error. -/
def SaveError.message : SaveError → String
  | .noPath => "SourceFile has no path; pass one to save()"

/-- The path at which a module is kept. -/
def savePath (m : Module) : Except SaveError String :=
  match m.path with
  | some p => .ok p
  | none => .error .noPath

@[simp] theorem ofSource_source (path : Option String) (source : List UInt8) :
    (ofSource path source).source = source := rfl

@[simp] theorem withSource_source (m : Module) (source : List UInt8) :
    (m.withSource source).source = source := rfl

@[simp] theorem withSource_self (m : Module) : m.withSource m.source = m := by
  cases m with
  | mk path source tree tree_eq => subst tree_eq; rfl

end Module

end ComponentDecl
