import ComponentDecl.Module.Query

/-! # Nodes and their trees

    What a node is, what it holds and how it is named are questions about its
    tree alone; the place only says where the answers stand.  Each question on a
    node has the same answer as one on its tree, so an answer survives when the
    tree comes to stand elsewhere.
-/

namespace ComponentDecl.Syntax

/-! ### Equal trees -/

namespace Tree

mutual

/-- Holds of equal trees. -/
def same : Tree → Tree → Bool
  | .token r k text, .token r' k' text' => r == r' && k == k' && text == text'
  | .node r k ts, .node r' k' ts' => r == r' && k == k' && sameAll ts ts'
  | _, _ => false

/-- Holds of lists of equal trees. -/
def sameAll : List Tree → List Tree → Bool
  | [], [] => true
  | t :: ts, u :: us => same t u && sameAll ts us
  | _, _ => false

end

mutual

theorem same_iff : (t u : Tree) → (same t u = true ↔ t = u)
  | .token r k text, .token r' k' text' => by simp [same, and_assoc]
  | .node r k ts, .node r' k' ts' => by simp [same, sameAll_iff ts ts', and_assoc]
  | .token _ _ _, .node _ _ _ => by simp [same]
  | .node _ _ _, .token _ _ _ => by simp [same]

theorem sameAll_iff : (ts us : List Tree) → (sameAll ts us = true ↔ ts = us)
  | [], [] => by simp [sameAll]
  | t :: ts, u :: us => by simp [sameAll, same_iff t u, sameAll_iff ts us]
  | [], _ :: _ => by simp [sameAll]
  | _ :: _, [] => by simp [sameAll]

end

end Tree

instance : DecidableEq Tree := fun t u => decidable_of_iff _ (Tree.same_iff t u)

/-! ### Questions on trees -/

namespace Tree

/-- Holds of constructs that are no comments. -/
def isPart (t : Tree) : Bool := t.kind.isNamed && !(t.kind == .comment)

/-- The trees directly below, without blanks. -/
def nodes (t : Tree) : List Tree := t.children.filter (·.kind ≠ .blank)

/-- The constructs directly below, without comments. -/
def parts (t : Tree) : List Tree := t.nodes.filter isPart

/-- The first tree below that has a role. -/
def child? (t : Tree) (r : Role) : Option Tree := t.nodes.find? (·.role == some r)

/-- The text of the name that a tree declares, if it has one. -/
def name? (t : Tree) : Option String :=
  (t.child? .name).bind fun u => if u.text.isEmpty then none else some u.text

/-- What a wrapper holds, at most `fuel` wrappers deep. -/
def unwrapWithin : Nat → Tree → Tree
  | 0, t => t
  | fuel + 1, t =>
    if t.kind.isWrapper then
      match (t.child? .declaration).or t.parts.head? with
      | some inner => unwrapWithin fuel inner
      | none => t
    else t

/-- The declaration inside the words and statements that wrap it. -/
def unwrap (t : Tree) : Tree := unwrapWithin t.height t

theorem unwrapWithin_of_not_wrapper {t : Tree} (h : t.kind.isWrapper = false) (fuel : Nat) :
    unwrapWithin fuel t = t := by
  cases fuel with
  | zero => rfl
  | succ fuel => rw [unwrapWithin, h, if_neg Bool.false_ne_true]

theorem isPart_of_isWrapper {t : Tree} (h : t.kind.isWrapper = true) : t.isPart = true := by
  unfold Kind.isWrapper at h
  split at h
  · next hkind => rw [isPart, hkind]; rfl
  · next hkind => rw [isPart, hkind]; rfl
  · next hkind => rw [isPart, hkind]; rfl
  · cases h

/-- What holds a construct is a construct. -/
theorem isPart_of_unwrap {t : Tree} (h : t.unwrap.isPart = true) : t.isPart = true := by
  cases hwrapper : t.kind.isWrapper with
  | true => exact isPart_of_isWrapper hwrapper
  | false => rwa [unwrap, unwrapWithin_of_not_wrapper hwrapper] at h

/-- A wrapper with a part that is no wrapper holds the part with the role of a
    declaration, or else the first part. -/
theorem unwrap_of_wrapper {t inner : Tree} (h : t.kind.isWrapper = true)
    (hinner : (t.child? .declaration).or t.parts.head? = some inner)
    (hplain : inner.kind.isWrapper = false) : t.unwrap = inner := by
  cases t with
  | token r k text => cases hinner
  | node r k cs =>
    rw [unwrap, height, unwrapWithin, if_pos h, hinner]
    exact unwrapWithin_of_not_wrapper hplain _

/-- Holds of a statement that exports something as the module's own. -/
def isDefaultExport (t : Tree) : Bool :=
  t.kind == .exportStatement && t.nodes.any (·.typeName == "default")

/-- The clause that names the base of a class. -/
def extendsClause? (t : Tree) : Option Tree :=
  (t.nodes.find? (·.kind == .classHeritage)).bind fun heritage =>
    heritage.nodes.find? (·.kind == .extendsClause)

/-- The type arguments that a clause gives the base class. -/
def baseTypeArguments (t : Tree) : List Tree :=
  let inner := (t.child? .value).bind fun value =>
    if value.kind = .instantiationExpression then
      value.nodes.find? (·.kind == .typeArguments)
    else none
  match (t.child? .typeArguments).or inner with
  | some arguments => arguments.parts
  | none => []

/-- The variables that a declaration declares. -/
def declarators (t : Tree) : List Tree := t.parts.filter (·.kind == .variableDeclarator)

end Tree

/-! ### The same questions on nodes -/

namespace Node

/-- A node below another one stands directly under it. -/
theorem mem_children {n c : Node} (h : c ∈ n.children) : c.above = n.place :: n.above := by
  obtain ⟨p, -, rfl⟩ := List.mem_map.mp h
  rfl

theorem placesFrom_trees (offset : Nat) (before : List Site) (ts : List Tree) :
    (placesFrom offset before ts).map (·.site.tree) = ts.filter (·.kind ≠ .blank) := by
  induction ts generalizing offset before with
  | nil => rfl
  | cons t ts ih =>
    by_cases h : t.kind = .blank
    · simp [placesFrom, h, ih]
    · simp [placesFrom, h, ih]

@[simp] theorem children_tree (n : Node) : n.children.map tree = n.tree.nodes := by
  rw [Tree.nodes, ← placesFrom_trees n.start [], children, List.map_map]
  rfl

@[simp] theorem parts_tree (n : Node) : n.parts.map tree = n.tree.parts := by
  rw [Tree.parts, ← children_tree, List.filter_map]
  rfl

@[simp] theorem partsOf_tree (n : Node) (k : Kind) :
    (n.partsOf k).map tree = n.tree.parts.filter (·.kind == k) := by
  rw [← parts_tree, List.filter_map]
  rfl

@[simp] theorem child?_tree (n : Node) (r : Role) :
    (n.child? r).map tree = n.tree.child? r := by
  rw [Tree.child?, ← children_tree, List.find?_map]
  rfl

theorem name?_tree (n : Node) : n.name? = n.tree.name? := by
  rw [Tree.name?, ← child?_tree, name?]
  cases n.child? .name <;> rfl

theorem unwrapWithin_tree (fuel : Nat) (n : Node) :
    (unwrapWithin fuel n).tree = Tree.unwrapWithin fuel n.tree := by
  induction fuel generalizing n with
  | zero => rfl
  | succ fuel ih =>
    have hinner : ((n.child? .declaration).or n.parts.head?).map tree =
        (n.tree.child? .declaration).or n.tree.parts.head? := by
      rw [← child?_tree, ← parts_tree, List.head?_map, Option.map_or]
    rw [unwrapWithin, Tree.unwrapWithin, ← hinner]
    show (if n.tree.kind.isWrapper then _ else _ : Node).tree = _
    split
    · cases (n.child? .declaration).or n.parts.head? with
      | none => rfl
      | some inner => exact ih inner
    · rfl

@[simp] theorem unwrap_tree (n : Node) : n.unwrap.tree = n.tree.unwrap :=
  unwrapWithin_tree _ n

theorem isDefaultExport_tree (n : Node) : n.isDefaultExport = n.tree.isDefaultExport := by
  rw [Tree.isDefaultExport, ← children_tree, List.any_map]
  rfl

@[simp] theorem declarators_tree (n : Node) : n.declarators.map tree = n.tree.declarators :=
  partsOf_tree n _

/-! ### Nodes below a node -/

/-- Holds of nodes that stand below a node, however deep. -/
inductive Below (n : Node) : Node → Prop where
  | refl : Below n n
  | child {d c : Node} (h : Below n d) (hc : c ∈ d.children) : Below n c

theorem Below.trans {n d e : Node} (h : n.Below d) (h' : d.Below e) : n.Below e := by
  induction h' with
  | refl => exact h
  | child _ hc ih => exact ih.child hc

theorem mem_children_of_child? {n c : Node} {r : Role} (h : n.child? r = some c) :
    c ∈ n.children :=
  List.mem_of_find?_eq_some h

theorem mem_children_of_mem_parts {n c : Node} (h : c ∈ n.parts) : c ∈ n.children :=
  (List.mem_filter.mp h).1

theorem mem_children_of_mem_partsOf {n c : Node} {k : Kind} (h : c ∈ n.partsOf k) :
    c ∈ n.children :=
  mem_children_of_mem_parts (List.mem_filter.mp h).1

theorem unwrapWithin_of_not_wrapper {n : Node} (h : n.kind.isWrapper = false) (fuel : Nat) :
    unwrapWithin fuel n = n := by
  cases fuel with
  | zero => rfl
  | succ fuel => rw [unwrapWithin, h, if_neg Bool.false_ne_true]

/-- What a wrapper holds stands directly below it. -/
theorem mem_children_of_held {n inner : Node}
    (h : (n.child? .declaration).or n.parts.head? = some inner) : inner ∈ n.children := by
  rcases Option.or_eq_some_iff.mp h with h | ⟨-, h⟩
  · exact mem_children_of_child? h
  · exact mem_children_of_mem_parts (List.mem_of_head? h)

theorem below_unwrapWithin (fuel : Nat) (n : Node) : n.Below (unwrapWithin fuel n) := by
  induction fuel generalizing n with
  | zero => exact .refl
  | succ fuel ih =>
    rw [unwrapWithin]
    split
    · split
      · next inner h => exact Below.trans (.child .refl (mem_children_of_held h)) (ih inner)
      · exact .refl
    · exact .refl

theorem below_unwrap (n : Node) : n.Below n.unwrap := below_unwrapWithin _ n

/-- A node below one with a parent has a parent. -/
theorem Below.above_ne {n d : Node} (h : n.Below d) (hn : n.above ≠ []) : d.above ≠ [] := by
  cases h with
  | refl => exact hn
  | child _ hc =>
    rw [mem_children hc]
    exact List.cons_ne_nil _ _

theorem below_typeAlias? {ns d : Node} {name : String} (h : ns.typeAlias? name = some d) :
    ns.Below d := by
  unfold typeAlias? at h
  split at h
  · cases h
  · next body hbody =>
    obtain ⟨stmt, hstmt, hfind⟩ := List.exists_of_findSome?_eq_some h
    dsimp only at hfind
    split at hfind
    · obtain rfl := Option.some.inj hfind
      exact (Below.child (.child .refl (mem_children_of_child? hbody))
        (mem_children_of_mem_parts hstmt)).trans (below_unwrap stmt)
    · cases hfind

/-- A node below a statement has that statement as its highest node. -/
theorem Below.topLevel {n d : Node} {root : Place} (h : n.Below d) (hn : n.above = [root]) :
    d.topLevel = n := by
  have key : d.topLevel = n ∧ d.above ≠ [] := by
    induction h with
    | refl =>
      refine ⟨?_, by simp [hn]⟩
      show topLevel.go n.place n.above = n
      rw [hn]
      show (⟨n.place, [root]⟩ : Node) = n
      rw [← hn]
    | @child d c _ hc ih =>
      refine ⟨?_, by simp [mem_children hc]⟩
      obtain ⟨q, rest, hrest⟩ := List.exists_cons_of_ne_nil ih.2
      rw [← ih.1]
      show topLevel.go c.place c.above = topLevel.go d.place d.above
      rw [mem_children hc, hrest]
      rfl
  exact key.1

end Node

end ComponentDecl.Syntax
