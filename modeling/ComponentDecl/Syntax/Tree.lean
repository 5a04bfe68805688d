import ComponentDecl.Syntax.Kind

/-! # Syntax trees

    A tree keeps every character of the text it was read from: its tokens, read
    left to right, spell that text, white space and comments included.  Byte
    positions are therefore sums of widths, and no two siblings can overlap. -/

namespace ComponentDecl.Syntax

/-- A syntax tree.  Each tree knows what it is to the tree above it. -/
inductive Tree where
  /-- A stretch of characters without inner structure. -/
  | token (role : Option Role) (kind : Kind) (text : List Char)
  /-- A construct made of smaller trees. -/
  | node (role : Option Role) (kind : Kind) (children : List Tree)
  deriving Repr, Inhabited

namespace Tree

/-! ## Text -/

mutual

/-- The characters of a tree, left to right. -/
def spell : Tree → List Char
  | .token _ _ text => text
  | .node _ _ children => spellAll children

/-- The characters of neighbouring trees, left to right. -/
def spellAll : List Tree → List Char
  | [] => []
  | t :: ts => t.spell ++ spellAll ts

end

/-- The number of bytes of a tree's text. -/
def width (t : Tree) : Nat :=
  t.spell.foldr (fun c n => c.utf8Size + n) 0

/-- The text of a tree. -/
def text (t : Tree) : String :=
  String.ofList t.spell

/-! ## Parts -/

/-- What the tree is. -/
def kind : Tree → Kind
  | .token _ k _ => k
  | .node _ k _ => k

/-- What the tree is to the tree above it. -/
def role : Tree → Option Role
  | .token r _ _ => r
  | .node r _ _ => r

/-- The trees directly below, blanks included. -/
def children : Tree → List Tree
  | .token _ _ _ => []
  | .node _ _ cs => cs

/-- The same tree in another role. -/
def withRole (r : Role) : Tree → Tree
  | .token _ k text => .token (some r) k text
  | .node _ k cs => .node (some r) k cs

/-- The same tree as another kind of construct. -/
def withKind (k : Kind) : Tree → Tree
  | .token r _ text => .token r k text
  | .node r _ cs => .node r k cs

/-- The type name of a tree: that of its kind, or for a mark its own text. -/
def typeName (t : Tree) : String :=
  match t.kind with
  | .mark => t.text
  | k => k.name

mutual

/-- Holds of a tree in which some text could not be read. -/
def hasError : Tree → Bool
  | .token _ k _ => k == .error
  | .node _ k children => k == .error || anyError children

/-- Holds of neighbouring trees one of which has text that could not be read. -/
def anyError : List Tree → Bool
  | [] => false
  | t :: ts => t.hasError || anyError ts

end

/-! ## Laws -/

@[simp] theorem spell_token (r : Option Role) (k : Kind) (text : List Char) :
    (token r k text).spell = text := by
  simp [spell]

@[simp] theorem spell_node (r : Option Role) (k : Kind) (cs : List Tree) :
    (node r k cs).spell = spellAll cs := by
  simp [spell]

@[simp] theorem spellAll_nil : spellAll [] = [] := by
  simp [spellAll]

@[simp] theorem spellAll_cons (t : Tree) (ts : List Tree) :
    spellAll (t :: ts) = t.spell ++ spellAll ts := by
  simp [spellAll]

@[simp] theorem spellAll_append (ts us : List Tree) :
    spellAll (ts ++ us) = spellAll ts ++ spellAll us := by
  induction ts with
  | nil => simp
  | cons t ts ih => simp [ih]

@[simp] theorem spell_withRole (r : Role) (t : Tree) : (t.withRole r).spell = t.spell := by
  cases t <;> simp [withRole]

@[simp] theorem spell_withKind (k : Kind) (t : Tree) : (t.withKind k).spell = t.spell := by
  cases t <;> simp [withKind]

end Tree

end ComponentDecl.Syntax
