import ComponentDecl.Proofs.Syntax.Views
import ComponentDecl.Proofs.Module.Settle

/-! # Edits inside a statement

    A node below a statement covers a part of its text, and the offset of the
    node tells which part.  So a batch of edits on parts of a node is a batch on
    any node above it.

    Key theorems:
    - `Node.exists_space`: what stands between the full start of a node and the node
    - `Node.Below.holds`: where a node stands in the text of one above it
    - `weave_replaced`: a batch that replaces nodes below one node
    - `weave_full`: the same with the space before the nodes
-/

namespace ComponentDecl

open Syntax Text

/-! ### Where nodes stand -/

/-- The end of the nearest sibling before a node that is no comment, or the start
    of the parent. -/
def fullStartFrom (start : Nat) (earlier : List Site) : Nat :=
  match earlier.find? (·.tree.kind != .comment) with
  | some previous => previous.stop
  | none => start

namespace Syntax.Node

/-- A node holds another one between two stretches of its text. -/
def Holds (n d : Node) (before after : List Char) : Prop :=
  n.tree.spell = before ++ (d.tree.spell ++ after) ∧ d.start = n.start + size before

theorem Holds.refl (n : Node) : n.Holds n [] [] := ⟨by simp, rfl⟩

theorem Holds.trans {n d e : Node} {before after before' after' : List Char}
    (h : n.Holds d before after) (h' : d.Holds e before' after') :
    n.Holds e (before ++ before') (after' ++ after) :=
  ⟨by rw [h.1, h'.1]; simp, by rw [h'.2, h.2, size_append, Nat.add_assoc]⟩

theorem Holds.stop_eq {n d : Node} {before after : List Char} (h : n.Holds d before after) :
    d.stop = n.start + size (before ++ d.tree.spell) := by
  show d.start + d.tree.width = _
  rw [width_eq, h.2, size_append, Nat.add_assoc]

theorem stop_eq (n : Node) : n.stop = n.start + size n.tree.spell := by
  show n.start + n.tree.width = _
  rw [width_eq]

theorem children_ne_nil {n c : Node} (h : c ∈ n.children) : n.tree.children ≠ [] := by
  intro hnil
  rw [children, hnil] at h
  cases h

/-- The text of a node with nodes below it is its first gap and its pieces. -/
theorem spell_eq {n c : Node} (h : c ∈ n.children) :
    n.tree.spell = leadGap n.tree.children ++ piecesText (Syntax.pieces n.tree.children) := by
  rw [Tree.spell_of_children (children_ne_nil h), spellAll_eq]

/-- What stands before a tree that is placed, back to where its full start is.  Of the trees
    placed so far, `space` are those after the last one that is neither white space nor a
    comment, and `kept` are the others. -/
theorem exists_space_placesFrom {start : Nat} {p : Place} {ts kept space : List Tree}
    {earlier : List Site} (hspace : ∀ t ∈ space, t.kind = .blank ∨ t.kind = .comment)
    (hfull : fullStartFrom start earlier = start + size (Tree.spellAll kept))
    (h : p ∈ placesFrom (start + size (Tree.spellAll (kept ++ space))) earlier ts) :
    ∃ front space' back, kept ++ (space ++ ts) = front ++ (space' ++ p.site.tree :: back) ∧
      (∀ t ∈ space', t.kind = .blank ∨ t.kind = .comment) ∧
      fullStartFrom start p.before = start + size (Tree.spellAll front) ∧
      p.site.start = start + size (Tree.spellAll (front ++ space')) := by
  induction ts generalizing kept space earlier with
  | nil => cases h
  | cons t ts ih =>
    have hnext : start + size (Tree.spellAll (kept ++ space)) + t.width =
        start + size (Tree.spellAll (kept ++ (space ++ [t]))) := by
      rw [← List.append_assoc, Tree.spellAll_append (kept ++ space), size_append,
        Tree.spellAll_cons, Tree.spellAll_nil, List.append_nil, width_eq, Nat.add_assoc]
    have hassoc : kept ++ (space ++ t :: ts) = kept ++ ((space ++ [t]) ++ ts) := by simp
    have hmore : t.kind = .blank ∨ t.kind = .comment →
        ∀ u ∈ space ++ [t], u.kind = .blank ∨ u.kind = .comment := by
      intro ht
      exact List.forall_mem_append.mpr ⟨hspace, fun u hu => List.mem_singleton.mp hu ▸ ht⟩
    rw [placesFrom, hnext] at h
    split at h
    · next hblank =>
      rw [hassoc]
      exact ih (hmore (Or.inl hblank)) hfull h
    rcases List.mem_cons.mp h with rfl | h
    · exact ⟨kept, space, ts, rfl, hspace, hfull, rfl⟩
    by_cases hcomment : t.kind = .comment
    · -- The full start skips comments.
      rw [hassoc]
      refine ih (hmore (Or.inr hcomment)) ?_ h
      rw [← hfull]
      simp [fullStartFrom, hcomment]
    · rw [hassoc, ← List.append_assoc, ← List.nil_append ts]
      refine ih (List.forall_mem_nil _) ?_ (by rwa [List.append_nil])
      rw [← hnext]
      simp [fullStartFrom, hcomment, Site.stop]

/-- Between the full start of a node and the node there are only white space and comments. -/
theorem exists_space {n c : Node} (h : c ∈ n.children) :
    ∃ front space back, n.tree.children = front ++ (space ++ c.tree :: back) ∧
      (∀ t ∈ space, t.kind = .blank ∨ t.kind = .comment) ∧
      fullStartFrom n.start c.place.before = n.start + size (Tree.spellAll front) ∧
      c.start = n.start + size (Tree.spellAll (front ++ space)) := by
  obtain ⟨p, hp, rfl⟩ := List.mem_map.mp h
  have hnone : ∀ t ∈ ([] : List Tree), t.kind = .blank ∨ t.kind = .comment := nofun
  exact @exists_space_placesFrom n.start p n.tree.children [] [] [] hnone rfl hp

theorem holds_of_mem_children {n c : Node} (h : c ∈ n.children) :
    ∃ before after, n.Holds c before after := by
  obtain ⟨front, space, back, hchildren, -, -, hstart⟩ := exists_space h
  refine ⟨Tree.spellAll (front ++ space), Tree.spellAll back, ?_, hstart⟩
  rw [Tree.spell_of_children (children_ne_nil h), hchildren, ← List.append_assoc,
    Tree.spellAll_append, Tree.spellAll_cons]

theorem Below.holds {n d : Node} (h : n.Below d) : ∃ before after, n.Holds d before after := by
  induction h with
  | refl => exact ⟨[], [], Holds.refl n⟩
  | child _ hc ih =>
    obtain ⟨before, after, h⟩ := ih
    obtain ⟨before', after', h'⟩ := holds_of_mem_children hc
    exact ⟨_, _, h.trans h'⟩

end Syntax.Node

/-- A batch on a node is a batch on the node that holds it. -/
theorem Weave.hold {n d : Node} {before after out : List Char} {edits : List Edit}
    (h : Weave d.start edits d.tree.spell out) (hd : n.Holds d before after) :
    Weave n.start edits n.tree.spell (before ++ (out ++ after)) := by
  rw [hd.2] at h
  rw [hd.1]
  exact (h.extend after).prepend before

/-! ### Nodes in a row -/

/-- Nodes below one node, each replaced by a text, from left to right. -/
def replacements (l : List (Node × String)) : List Edit := l.map fun c => Edit.replace c.1 c.2

theorem weave_replaced_pieces {above : List Place} {ps : List Piece} {offset : Nat}
    {earlier : List Site} {l : List (Node × String)}
    (h : (l.map (·.1)).Sublist
      ((piecePlaces offset earlier ps).map fun p => (⟨p, above⟩ : Node))) :
    ∃ out, Weave offset (replacements l) (piecesText ps) out := by
  induction ps generalizing offset earlier l with
  | nil =>
    obtain rfl : l = [] := by simpa [piecePlaces] using h
    exact ⟨_, .done _ _⟩
  | cons p ps ih =>
    rw [piecePlaces, List.map_cons] at h
    rw [piecesText_cons]
    have hsize : offset + size p.text = offset + size p.tree.spell + size p.gap := by
      rw [Piece.text, size_append, Nat.add_assoc]
    cases l with
    | nil => exact ⟨_, .done _ _⟩
    | cons c l =>
      -- The first edit replaces a later piece or this one.
      rcases List.sublist_cons_iff.mp h with h | ⟨nodes, hnodes, h⟩
      · obtain ⟨out, hout⟩ := ih h
        rw [hsize, Nat.add_assoc, ← size_append] at hout
        exact ⟨p.tree.spell ++ p.gap ++ out, by simpa using hout.prepend _⟩
      · obtain ⟨hc, rfl⟩ := List.cons.inj hnodes
        obtain ⟨out, hout⟩ := ih h
        rw [hsize] at hout
        have hedit := Weave.edit [] p.tree.spell c.2 (hout.prepend p.gap)
        have hreplace : Edit.replace c.1 c.2 =
            ⟨(offset + size [] : Nat), (offset + size [] + size p.tree.spell : Nat), c.2⟩ := by
          have hc : c.1 = _ := hc
          rw [Edit.replace, Node.stop_eq, hc]
          rfl
        rw [← hreplace] at hedit
        exact ⟨_, by simpa [replacements] using hedit⟩

/-- Replacing nodes that stand directly below a node, in their order, is a batch
    on that node. -/
theorem weave_replaced {n : Node} {l : List (Node × String)}
    (h : (l.map (·.1)).Sublist n.children) :
    ∃ out, Weave n.start (replacements l) n.tree.spell out := by
  cases hl : l with
  | nil => exact ⟨_, .done _ _⟩
  | cons c l' =>
    have hspell := Node.spell_eq (h.subset (by simp [hl] : c.1 ∈ l.map (·.1)))
    rw [Node.children_eq] at h
    obtain ⟨out, hout⟩ := weave_replaced_pieces h
    rw [← hl, hspell]
    exact ⟨_, hout.prepend _⟩

/-! ### Stretches between two nodes -/

/-- Two edits cut a text in five. -/
theorem Weave.cut {offset : Nat} {a b : Edit} {text out : List Char}
    (h : Weave offset [a, b] text out) :
    ∃ s₁ s₂ s₃ s₄ s₅, text = s₁ ++ (s₂ ++ (s₃ ++ (s₄ ++ s₅))) ∧
      a.start = (offset + size s₁ : Nat) ∧ a.stop = (offset + size (s₁ ++ s₂) : Nat) ∧
      b.start = (offset + size (s₁ ++ s₂ ++ s₃) : Nat) ∧
      b.stop = (offset + size (s₁ ++ s₂ ++ s₃ ++ s₄) : Nat) := by
  cases h with
  | edit s₁ s₂ t h =>
    cases h with
    | edit s₃ s₄ t' h =>
      cases h with
      | done =>
        rename_i s₅
        exact ⟨s₁, s₂, s₃, s₄, s₅, by simp, rfl, by simp [Nat.add_assoc],
          by simp [Nat.add_assoc], by simp [Nat.add_assoc]⟩

/-- The stretch from one node up to a later one can be removed. -/
theorem weave_until {n a b : Node} (h : [a, b].Sublist n.children) :
    ∃ out, Weave n.start [⟨a.start, b.start, ""⟩] n.tree.spell out := by
  obtain ⟨out, hout⟩ := weave_replaced (l := [(a, ""), (b, "")]) h
  obtain ⟨s₁, s₂, s₃, s₄, s₅, htext, hstart, -, hstop, -⟩ := hout.cut
  have := weave_single n.start s₁ (s₂ ++ s₃) (s₄ ++ s₅) ""
  have hplace : n.start + size s₁ + size (s₂ ++ s₃) = n.start + size (s₁ ++ s₂ ++ s₃) := by
    simp [Nat.add_assoc]
  rw [hplace, ← hstart, ← hstop] at this
  rw [htext]
  exact ⟨_, by simpa [Edit.replace] using this⟩

/-- The stretch after one node up to the end of a later one can be removed. -/
theorem weave_after {n a b : Node} (h : [a, b].Sublist n.children) :
    ∃ out, Weave n.start [⟨a.stop, b.stop, ""⟩] n.tree.spell out := by
  obtain ⟨out, hout⟩ := weave_replaced (l := [(a, ""), (b, "")]) h
  obtain ⟨s₁, s₂, s₃, s₄, s₅, htext, -, hstart, -, hstop⟩ := hout.cut
  have := weave_single n.start (s₁ ++ s₂) (s₃ ++ s₄) s₅ ""
  have hplace : n.start + size (s₁ ++ s₂) + size (s₃ ++ s₄) =
      n.start + size (s₁ ++ s₂ ++ s₃ ++ s₄) := by
    simp [Nat.add_assoc]
  rw [hplace, ← hstart, ← hstop] at this
  rw [htext]
  exact ⟨_, by simpa [Edit.replace] using this⟩

/-- Nodes directly below a node start one after the other. -/
theorem children_rising {n : Node} (h : Full n.tree) :
    n.children.Pairwise fun a b => a.start < b.start := by
  -- Every piece takes room, so the next one starts further on.
  have key : ∀ (ps : List Piece) (offset : Nat) (earlier : List Site),
      (∀ p ∈ ps, p.tree.spell ≠ []) →
      (piecePlaces offset earlier ps).Pairwise (fun a b => a.site.start < b.site.start) ∧
        ∀ p ∈ piecePlaces offset earlier ps, offset ≤ p.site.start := by
    intro ps
    induction ps with
    | nil => exact fun _ _ _ => ⟨List.Pairwise.nil, nofun⟩
    | cons p ps ih =>
      intro offset earlier hps
      have hps := List.forall_mem_cons.mp hps
      obtain ⟨hpairs, hle⟩ := ih (offset + size p.text) (⟨p.tree, offset⟩ :: earlier) hps.2
      have hsize : size p.text = size p.tree.spell + size p.gap := size_append _ _
      have hpos := size_pos hps.1
      refine ⟨List.pairwise_cons.mpr ⟨fun q hq => ?_, hpairs⟩, fun q hq => ?_⟩
      · have := hle q hq
        dsimp only
        omega
      · rcases List.mem_cons.mp hq with rfl | hq
        · exact Nat.le_refl _
        · have := hle q hq
          omega
  rw [Node.children_eq, List.pairwise_map]
  refine (key _ _ _ fun p hp => ?_).1
  have : p.tree ∈ (Syntax.pieces n.tree.children).map (·.tree) := List.mem_map_of_mem hp
  rw [pieces_trees] at this
  exact (h.children _ (List.mem_filter.mp this).1).spell_ne_nil

/-! ### Nodes with the space before them -/

/-- Edits that replace nodes with the space before them. -/
def fullReplacements (start : Nat) (l : List (Node × String)) : List Edit :=
  l.map fun c => ⟨fullStartFrom start c.1.place.before, c.1.stop, c.2⟩

/-- A piece that is replaced takes the space before it along. -/
theorem weave_full_edit {above : List Place} {start offset : Nat} {p : Piece}
    {earlier : List Site} {pending rest out : List Char} {edits : List Edit} {c : Node × String}
    (hpending : fullStartFrom start earlier + size pending = offset)
    (hc : c.1 = ⟨⟨⟨p.tree, offset⟩, earlier⟩, above⟩)
    (hwoven : Weave (fullStartFrom start earlier + size (pending ++ p.tree.spell)) edits rest out) :
    Weave (fullStartFrom start earlier)
      (⟨fullStartFrom start c.1.place.before, c.1.stop, c.2⟩ :: edits)
      (pending ++ (p.tree.spell ++ rest)) (c.2.toList ++ out) := by
  have hedit := Weave.edit [] (pending ++ p.tree.spell) c.2 (by simpa using hwoven)
  have hreplace : (⟨fullStartFrom start c.1.place.before, c.1.stop, c.2⟩ : Edit) =
      ⟨(fullStartFrom start earlier + size [] : Nat),
        (fullStartFrom start earlier + size [] + size (pending ++ p.tree.spell) : Nat), c.2⟩ := by
    rw [Node.stop_eq, hc, size_nil, Nat.add_zero, size_append, ← Nat.add_assoc, hpending]
    rfl
  rw [← hreplace] at hedit
  simpa using hedit

/-- Replacements of some of the pieces, where `pending` is the text since the last one that is
    no comment. -/
theorem weave_full_pieces {above : List Place} {start : Nat} {ps : List Piece} {offset : Nat}
    {earlier : List Site} {pending : List Char} {l : List (Node × String)}
    (hpending : fullStartFrom start earlier + size pending = offset)
    (h : (l.map (·.1)).Sublist
      ((piecePlaces offset earlier ps).map fun p => (⟨p, above⟩ : Node)))
    (hl : ∀ c ∈ l, c.1.tree.kind ≠ .comment ∧ c.1.tree.spell ≠ []) :
    ∃ out, Weave (fullStartFrom start earlier) (fullReplacements start l)
        (pending ++ piecesText ps) out ∧
      ∀ e ∈ fullReplacements start l, e.start < e.stop := by
  induction ps generalizing offset earlier pending l with
  | nil =>
    obtain rfl : l = [] := by simpa [piecePlaces] using h
    exact ⟨_, .done _ _, by simp [fullReplacements]⟩
  | cons p ps ih =>
    rw [piecePlaces, List.map_cons] at h
    rw [piecesText_cons]
    have hsize : offset + size p.text = offset + size p.tree.spell + size p.gap := by
      rw [Piece.text, size_append, Nat.add_assoc]
    by_cases hp : p.tree.kind = .comment
    · -- Comments belong to the space before the next node.
      have hsame : fullStartFrom start (⟨p.tree, offset⟩ :: earlier) =
          fullStartFrom start earlier := by
        simp [fullStartFrom, hp]
      have hsub : (l.map (·.1)).Sublist ((piecePlaces (offset + size p.text)
          (⟨p.tree, offset⟩ :: earlier) ps).map fun p => (⟨p, above⟩ : Node)) := by
        rcases List.sublist_cons_iff.mp h with h | ⟨nodes, hnodes, -⟩
        · exact h
        · obtain ⟨c, l', rfl, hc, -⟩ := List.map_eq_cons_iff.mp hnodes
          have := (hl c (by simp)).1
          rw [hc] at this
          exact absurd hp this
      have hnext : fullStartFrom start (⟨p.tree, offset⟩ :: earlier) +
          size (pending ++ (p.tree.spell ++ p.gap)) = offset + size p.text := by
        rw [hsame, size_append, size_append, hsize]
        omega
      obtain ⟨out, hout, hcovers⟩ := ih hnext hsub hl
      rw [hsame] at hout
      exact ⟨out, by simpa using hout, hcovers⟩
    · have hstop : fullStartFrom start (⟨p.tree, offset⟩ :: earlier) =
          fullStartFrom start earlier + size (pending ++ p.tree.spell) := by
        rw [size_append, ← Nat.add_assoc, hpending]
        simp [fullStartFrom, hp, Site.stop, width_eq]
      have hnext : fullStartFrom start (⟨p.tree, offset⟩ :: earlier) + size p.gap =
          offset + size p.text := by
        rw [hstop, size_append, hsize]
        omega
      -- The piece goes out as it is, or it is replaced together with what is pending.
      cases l with
      | nil => exact ⟨_, .done _ _, by simp [fullReplacements]⟩
      | cons c l =>
        rcases List.sublist_cons_iff.mp h with h | ⟨nodes, hnodes, h⟩
        · obtain ⟨out, hout, hcovers⟩ := ih hnext h hl
          rw [hstop] at hout
          exact ⟨pending ++ p.tree.spell ++ out, by simpa using hout.prepend _, hcovers⟩
        · obtain ⟨hc, rfl⟩ := List.cons.inj hnodes
          have hc : c.1 = _ := hc
          have hl := List.forall_mem_cons.mp hl
          obtain ⟨out, hout, hcovers⟩ := ih hnext h hl.2
          rw [hstop] at hout
          refine ⟨_, weave_full_edit hpending hc hout, List.forall_mem_cons.mpr ⟨?_, hcovers⟩⟩
          have hpos : 0 < size p.tree.spell := by
            have := size_pos hl.1.2
            rwa [hc] at this
          show (fullStartFrom start c.1.place.before : Int) < (c.1.stop : Nat)
          rw [Node.stop_eq, hc]
          show (fullStartFrom start earlier : Int) < (offset + size p.tree.spell : Nat)
          omega

/-- Replacing nodes that stand directly below a node, in their order and with the
    space before each, is a batch on that node. -/
theorem weave_full {n : Node} {l : List (Node × String)}
    (h : (l.map (·.1)).Sublist n.children)
    (hl : ∀ c ∈ l, c.1.tree.kind ≠ .comment ∧ c.1.tree.spell ≠ []) :
    ∃ out, Weave n.start (fullReplacements n.start l) n.tree.spell out ∧
      ∀ e ∈ fullReplacements n.start l, e.start < e.stop := by
  cases hne : l with
  | nil => exact ⟨_, .done _ _, nofun⟩
  | cons c l' =>
    have hspell := Node.spell_eq (h.subset (by simp [hne] : c.1 ∈ l.map (·.1)))
    rw [Node.children_eq] at h
    rw [← hne, hspell]
    exact @weave_full_pieces _ n.start _ _ [] _ _ rfl h hl

/-- Below a node that is not the whole module, the space before a node starts
    there. -/
theorem fullStart_eq {n c : Node} (h : c ∈ n.children) (hn : n.above ≠ []) :
    c.fullStart = fullStartFrom n.start c.place.before := by
  have hparent : c.parent? = some n := by
    rw [Node.parent?, Node.mem_children h]
  have hroot : n.isRoot = false := by
    rw [Node.isRoot, List.isEmpty_eq_false_iff]
    exact hn
  unfold Node.fullStart fullStartFrom
  rw [hparent]
  cases c.place.before.find? (·.tree.kind != .comment) with
  | none => simp [hroot]
  | some previous => rfl

end ComponentDecl
