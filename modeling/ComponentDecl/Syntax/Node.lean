import ComponentDecl.Syntax.Tree

/-! # Nodes

    A tree at its place in a module: where it starts, what stands before it
    under the same parent, and the chain of its parents.  Blanks are no nodes;
    they only take up room. -/

namespace ComponentDecl.Syntax

/-- A tree with the byte offset at which it starts. -/
structure Site where
  tree : Tree
  start : Nat
  deriving Repr, Inhabited

/-- The byte offset just after a tree. -/
def Site.stop (s : Site) : Nat := s.start + s.tree.width

/-- A tree under its parent, with its earlier siblings, the nearest first. -/
structure Place where
  site : Site
  before : List Site
  deriving Repr, Inhabited

/-- A tree at its place in a module. -/
structure Node where
  place : Place
  /-- The places of the parents, the nearest first. -/
  above : List Place
  deriving Repr, Inhabited

namespace Node

/-! ## The node itself -/

/-- The node that holds a whole module. -/
def ofProgram (t : Tree) : Node := ⟨⟨⟨t, 0⟩, []⟩, []⟩

/-- The tree of a node. -/
def tree (n : Node) : Tree := n.place.site.tree

/-- What a node is. -/
def kind (n : Node) : Kind := n.tree.kind

/-- The type name of a node. -/
def typeName (n : Node) : String := n.tree.typeName

/-- The offset of a node's first byte. -/
def start (n : Node) : Nat := n.place.site.start

/-- The offset after a node's last byte. -/
def stop (n : Node) : Nat := n.place.site.stop

/-- The text of a node. -/
def text (n : Node) : String := n.tree.text

/-- Holds of constructs, as opposed to punctuation and keywords. -/
def isNamed (n : Node) : Bool := n.kind.isNamed

/-- Holds of comments. -/
def isComment (n : Node) : Bool := n.kind == .comment

/-! ## Neighbours -/

/-- Places the trees below a node from left to right, where `before` holds the
    siblings placed so far, the nearest first. -/
def placesFrom (offset : Nat) (before : List Site) : List Tree → List Place
  | [] => []
  | t :: ts =>
    if t.kind = .blank then placesFrom (offset + t.width) before ts
    else
      let site := ⟨t, offset⟩
      ⟨site, before⟩ :: placesFrom (offset + t.width) (site :: before) ts

/-- The nodes directly below a node. -/
def children (n : Node) : List Node :=
  (placesFrom n.start [] n.tree.children).map fun p => ⟨p, n.place :: n.above⟩

/-- The constructs directly below a node, without comments. -/
def parts (n : Node) : List Node :=
  n.children.filter fun c => c.isNamed && !c.isComment

/-- The constructs of a kind directly below a node. -/
def partsOf (n : Node) (k : Kind) : List Node :=
  n.parts.filter (·.kind == k)

/-- The first node below that has a role. -/
def child? (n : Node) (r : Role) : Option Node :=
  n.children.find? (·.tree.role == some r)

/-- The node directly above. -/
def parent? (n : Node) : Option Node :=
  match n.above with
  | [] => none
  | p :: ps => some ⟨p, ps⟩

/-- Holds of the node of a whole module. -/
def isRoot (n : Node) : Bool := n.above.isEmpty

/-- The highest node above that is not the whole module, or the node itself. -/
def topLevel (n : Node) : Node :=
  go n.place n.above
where
  /-- Climbs along the places above. -/
  go (p : Place) : List Place → Node
    | [] => ⟨p, []⟩
    | [root] => ⟨p, [root]⟩
    | q :: rest => go q rest

/-! ## Names -/

/-- The text of the name that a node declares, if it has one. -/
def name? (n : Node) : Option String :=
  (n.child? .name).bind fun m => if m.text.isEmpty then none else some m.text

end Node

end ComponentDecl.Syntax
