import ComponentDecl.Proofs.Module.Lookup
import Mathlib.Data.List.Forall2

/-! # Nodes that stand elsewhere

    A node and another one with the same tree hold the same nodes, all of them
    moved by the same distance.  So what a stage plans inside a statement does
    not depend on where the statement stands.

    Key theorems:
    - `Node.Shifted.unwrap`, `Node.Shifted.declarators`: what moves with a node
    - `woven_shift`: a batch on a node that has moved
-/

namespace ComponentDecl

open Syntax Text

/-! ### Corresponding lists -/

theorem forall₂_append_left {α β : Type} {R : α → β → Prop} {as as' : List α} {bs : List β}
    (h : List.Forall₂ R (as ++ as') bs) :
    ∃ us us', List.Forall₂ R as us ∧ List.Forall₂ R as' us' ∧ bs = us ++ us' :=
  ⟨_, _, (List.forall₂_take_append bs as as' h.flip).flip,
    (List.forall₂_drop_append bs as as' h.flip).flip, (List.take_append_drop _ _).symm⟩

theorem forall₂_mem_right {α β : Type} {R : α → β → Prop} {as : List α} {bs : List β}
    (h : List.Forall₂ R as bs) {b : β} (hb : b ∈ bs) : ∃ a ∈ as, R a b := by
  induction h with
  | nil => cases hb
  | cons hab _ ih =>
    rcases List.mem_cons.mp hb with rfl | hb
    · exact ⟨_, List.mem_cons_self, hab⟩
    · obtain ⟨a, ha, hr⟩ := ih hb
      exact ⟨a, List.mem_cons_of_mem _ ha, hr⟩

/-! ### What moves with a node -/

namespace Syntax.Node

/-- A node has the tree of another one and stands at a distance from it. -/
def Shifted (k : Int) (n n' : Node) : Prop :=
  n'.tree = n.tree ∧ (n'.start : Int) = n.start + k

variable {k : Int} {n n' : Node}

theorem Shifted.stop (h : n.Shifted k n') : (n'.stop : Int) = n.stop + k := by
  have hstart := h.2
  rw [stop_eq, stop_eq, h.1]
  omega

theorem Shifted.children (h : n.Shifted k n') :
    List.Forall₂ (Shifted k) n.children n'.children := by
  have key : ∀ (ts : List Tree) (offset offset' : Nat) (earlier earlier' : List Site),
      (offset' : Int) = offset + k →
      List.Forall₂ (fun p p' : Place => p'.site.tree = p.site.tree ∧
        (p'.site.start : Int) = p.site.start + k)
        (placesFrom offset earlier ts) (placesFrom offset' earlier' ts) := by
    intro ts
    induction ts with
    | nil => exact fun _ _ _ _ _ => .nil
    | cons t ts ih =>
      intro offset offset' earlier earlier' hoffset
      have hnext : ((offset' + t.width : Nat) : Int) = (offset + t.width : Nat) + k := by omega
      unfold placesFrom
      split
      · exact ih _ _ _ _ hnext
      · exact .cons ⟨rfl, hoffset⟩ (ih _ _ _ _ hnext)
  unfold Node.children
  rw [List.forall₂_map_left_iff, List.forall₂_map_right_iff, h.1]
  exact key _ _ _ _ _ h.2

theorem Shifted.filter {ns ns' : List Node} (h : List.Forall₂ (Shifted k) ns ns')
    {p : Node → Bool} {q : Tree → Bool} (hp : ∀ n, p n = q n.tree) :
    List.Forall₂ (Shifted k) (ns.filter p) (ns'.filter p) := by
  refine List.rel_filter ?_ h
  intro a a' ha
  show (p a = true) ↔ (p a' = true)
  rw [hp, hp, ha.1]

theorem Shifted.parts (h : n.Shifted k n') : List.Forall₂ (Shifted k) n.parts n'.parts :=
  Shifted.filter (q := Tree.isPart) h.children fun _ => rfl

theorem Shifted.declarators (h : n.Shifted k n') :
    List.Forall₂ (Shifted k) n.declarators n'.declarators :=
  Shifted.filter (q := (·.kind == .variableDeclarator)) h.parts fun _ => rfl

theorem Shifted.find? {ns ns' : List Node} (h : List.Forall₂ (Shifted k) ns ns')
    {p : Node → Bool} {q : Tree → Bool} (hp : ∀ n, p n = q n.tree) :
    Option.Rel (Shifted k) (ns.find? p) (ns'.find? p) := by
  induction h with
  | nil => exact .none
  | @cons a a' l l' ha _ ih =>
    rw [List.find?_cons, List.find?_cons, hp a, hp a', ha.1]
    cases q a.tree with
    | true => exact .some ha
    | false => exact ih

theorem Shifted.child? (h : n.Shifted k n') (r : Role) :
    Option.Rel (Shifted k) (n.child? r) (n'.child? r) :=
  Shifted.find? (q := (·.role == some r)) h.children fun _ => rfl

theorem Shifted.inner (h : n.Shifted k n') : Option.Rel (Shifted k)
    ((n.child? .declaration).or n.parts.head?) ((n'.child? .declaration).or n'.parts.head?) := by
  have hdeclaration := h.child? .declaration
  have hparts := h.parts
  generalize n.child? .declaration = d, n'.child? .declaration = d' at hdeclaration ⊢
  generalize n.parts = ps, n'.parts = ps' at hparts ⊢
  cases hdeclaration with
  | some hc => exact .some hc
  | none =>
    cases hparts with
    | nil => exact .none
    | cons hp _ => exact .some hp

theorem Shifted.unwrapWithin (fuel : Nat) (h : n.Shifted k n') :
    (n.unwrapWithin fuel).Shifted k (n'.unwrapWithin fuel) := by
  induction fuel generalizing n n' with
  | zero => exact h
  | succ fuel ih =>
    unfold Node.unwrapWithin
    have hkind : n'.kind = n.kind := congrArg Tree.kind h.1
    rw [hkind]
    split
    · have hinner := h.inner
      generalize (n.child? .declaration).or n.parts.head? = c,
        (n'.child? .declaration).or n'.parts.head? = c' at hinner ⊢
      cases hinner with
      | some hc => exact ih hc
      | none => exact h
    · exact h

theorem Shifted.unwrap (h : n.Shifted k n') : n.unwrap.Shifted k n'.unwrap := by
  unfold Node.unwrap
  rw [h.1]
  exact h.unwrapWithin _

end Syntax.Node

/-- An edit at a distance from another one. -/
def Edit.shift (k : Int) (e : Edit) : Edit := ⟨e.start + k, e.stop + k, e.text⟩

/-- A batch on a text that has moved makes the same text. -/
theorem woven_shift {offset : Nat} {edits : List Edit} {text out : List Char}
    (h : Weave offset edits text out) {k : Int} {offset' : Nat}
    (hoffset : (offset' : Int) = offset + k) :
    Weave offset' (edits.map (Edit.shift k)) text out := by
  induction h generalizing offset' with
  | done => exact .done _ _
  | @edit offset edits rest out kept gone text h ih =>
    have hrest : Weave (offset' + size kept + size gone) (edits.map (Edit.shift k)) rest out :=
      ih (by omega)
    have hedit := Weave.edit kept gone text hrest
    have hplace : Edit.shift k ⟨(offset + size kept : Nat),
        (offset + size kept + size gone : Nat), text⟩ =
        ⟨(offset' + size kept : Nat), (offset' + size kept + size gone : Nat), text⟩ := by
      have hstart : ((offset + size kept : Nat) : Int) + k = (offset' + size kept : Nat) := by omega
      have hstop : ((offset + size kept + size gone : Nat) : Int) + k =
          (offset' + size kept + size gone : Nat) := by omega
      rw [Edit.shift, hstart, hstop]
    rw [List.map_cons, hplace]
    exact hedit

end ComponentDecl
