import ComponentDecl.Proofs.Module.Blocks
import ComponentDecl.Proofs.Module.Spans
import ComponentDecl.Proofs.Pass.Carried

/-! # Comments that go away with a statement

    A comment at the top of a module goes away with a statement if it is attached to that
    statement, and only then.  The line on which it begins does not matter: a doc comment at
    the end of the line of an earlier statement is attached to the next one if nothing but
    white space with at most one line feed stands between them.

    Key theorems:
    - `SpanOf.takes_or_spares`: the comments in the span of a statement
    - `Batch.places`: where the edits of a pass stand
    - `removal_takes_attached`: what a pass does to the comments of a module
-/

namespace ComponentDecl

open Syntax Text

namespace Module

variable {m : Module} {comments : Option Comments} {settings : Settings}

/-! ### The nodes at the top -/

/-- Pieces follow one another. -/
theorem nodesFrom_apart (front ps : List Piece) :
    (m.nodesFrom front ps).Pairwise fun a b => a.stop ≤ b.start := by
  induction ps generalizing front with
  | nil => exact List.Pairwise.nil
  | cons p ps ih =>
    rw [nodesFrom_cons]
    refine List.pairwise_cons.mpr ⟨fun n hn => ?_, ih _⟩
    have hbounds := (bounds_of_mem_nodesFrom hn).1
    rw [stop_pieceNode]
    simp only [piecesText_append, piecesText_cons, piecesText_nil, size_append] at hbounds ⊢
    omega

theorem children_apart (m : Module) : m.root.children.Pairwise fun a b => a.stop ≤ b.start := by
  rw [root_children]
  exact nodesFrom_apart [] m.pieces

/-- No node at the top of a readable module is empty. -/
theorem start_lt_stop_of_child (hm : m.Readable) {n : Node} (h : n ∈ m.root.children) :
    n.start < n.stop := by
  rw [root_children] at h
  obtain ⟨p, hp, htree⟩ := tree_of_mem_nodesFrom h
  have hpos := size_pos ((pieces_spec hm).2.1 p hp).2.1.ne_nil
  rw [Node.stop_eq, htree]
  omega

theorem stop_le_length (hm : m.Readable) {n : Node} (h : n ∈ m.root.children) :
    n.stop ≤ m.source.length := by
  rw [root_children] at h
  have hbounds := (bounds_of_mem_nodesFrom h).2
  have hlength : m.source.length = size (m.lead ++ piecesText m.pieces) := by
    rw [source_pieces hm, size]
  rwa [List.nil_append, ← hlength] at hbounds

/-- Two different nodes at the top are apart. -/
theorem apart_of_ne {a b : Node} (ha : a ∈ m.root.children) (hb : b ∈ m.root.children)
    (hne : a ≠ b) : a.stop ≤ b.start ∨ b.stop ≤ a.start := by
  have hsymm : Std.Symm fun a b : Node => a.stop ≤ b.start ∨ b.stop ≤ a.start :=
    ⟨fun _ _ h => h.symm⟩
  have hpairs : m.root.children.Pairwise fun a b => a.stop ≤ b.start ∨ b.stop ≤ a.start :=
    m.children_apart.imp Or.inl
  exact hpairs.forall ha hb hne

/-- A module with a comment at its top encodes a text. -/
theorem readable_of_comment {c : Node} (h : c ∈ m.root.children) (hkind : c.kind = .comment) :
    m.Readable := by
  rcases m.readable_or with hm | hfault
  · exact hm
  · have hmem : c.tree ∈ m.root.tree.nodes := by
      rw [← Node.children_tree]
      exact List.mem_map_of_mem h
    rw [show m.root.tree = m.tree from rfl, hfault] at hmem
    have htree : c.tree = .token none .error [] := List.mem_singleton.mp hmem
    rw [Node.kind, htree] at hkind
    cases hkind

/-! ### Attached comments -/

/-- Holds of a doc comment at the top of a module with nothing but doc comments between it and
    a statement, each of them linked to what follows it. -/
def Attached (m : Module) (c stmt : Node) : Prop :=
  ∃ before docs after, m.root.children = before ++ c :: (docs ++ stmt :: after) ∧
    (∀ d ∈ c :: docs, d.tree.isDocComment = true) ∧
    (c :: (docs ++ [stmt])).IsChain fun p q => Linked m.source p.stop q.start

theorem spanOf_statement (hm : m.Readable) {stmt : Node} (h : stmt ∈ m.statements) :
    ∃ before docs after, m.SpanOf (m.statementSpan stmt) before docs stmt after := by
  obtain ⟨before, r, after, hrows, rfl⟩ := exists_rows_of_statement h
  exact ⟨_, _, _, m.spanOf_nodeAt hm hrows⟩

variable {span : Nat × Nat} {before docs after : List Node} {stmt c : Node}

/-- A node at the top stands in one place. -/
theorem split_unique (hm : m.Readable) {front back front' back' : List Node}
    (h : m.root.children = front ++ stmt :: back) (h' : m.root.children = front' ++ stmt :: back') :
    front = front' := by
  have hfirst : ∀ {front back : List Node}, m.root.children = front ++ stmt :: back →
      ∀ n ∈ front, (n.start == stmt.start) = false := by
    intro front back h n hn
    have hlt := m.start_lt_stop_of_child hm (h ▸ List.mem_append_left _ hn)
    have hapart := m.children_apart
    rw [h] at hapart
    have := (List.pairwise_append.mp hapart).2.2 n hn stmt List.mem_cons_self
    exact beq_eq_false_iff_ne.mpr (by omega)
  exact (first_unique (h.symm.trans h') (hfirst h) (beq_self_eq_true _) (hfirst h')
    (beq_self_eq_true _)).1

/-- The doc comments that go away with a statement are those that are attached to it. -/
theorem SpanOf.attached_iff (hm : m.Readable) (h : m.SpanOf span before docs stmt after) :
    m.Attached c stmt ↔ c ∈ docs := by
  constructor
  · rintro ⟨before', docs', after', hchildren, hdoc, hchain⟩
    have hsiblings := h.siblings
    rw [← List.append_assoc] at hsiblings
    rw [← List.cons_append, ← List.append_assoc] at hchildren
    have hsame := m.split_unique hm hsiblings hchildren
    rcases List.append_eq_append_iff.mp hsame with ⟨more, rfl, hdocs⟩ | ⟨more, rfl, hdocs⟩
    · rw [hdocs]
      exact List.mem_append_right _ List.mem_cons_self
    · -- All that stands from the comment on is attached, so nothing of it stands before the span.
      rcases List.eq_nil_or_concat more with rfl | ⟨front, last, rfl⟩
      · rw [List.nil_append] at hdocs
        rw [← hdocs]
        exact List.mem_cons_self
      · exfalso
        rw [List.concat_eq_append] at hdocs
        have hlast : last.tree.isDocComment = true := by
          refine hdoc last ?_
          rw [hdocs]
          simp
        rw [← List.cons_append, hdocs, List.append_assoc, List.append_assoc] at hchain
        have hlinked := (List.isChain_append.mp hchain).2.1
        rw [List.singleton_append, List.isChain_cons] at hlinked
        obtain ⟨first, hfirst⟩ : ∃ first, first ∈ (docs ++ [stmt]).head? := by
          cases docs with
          | nil => exact ⟨_, rfl⟩
          | cons d docs => exact ⟨_, rfl⟩
        refine h.detached last ?_ first hfirst hlast (hlinked.1 first hfirst)
        simp
  · intro hc
    obtain ⟨docs₁, docs₂, rfl⟩ := List.append_of_mem hc
    refine ⟨before ++ docs₁, docs₂, after, by rw [h.siblings]; simp, fun d hd => ?_, ?_⟩
    · exact h.documents d (List.mem_append_right _ hd)
    · have hlinked := h.linked
      rw [List.append_assoc] at hlinked
      exact (List.isChain_append.mp hlinked).2.1.imp fun _ _ h => h.2

/-- The doc comments of a span lie in it. -/
theorem SpanOf.contains_docs (h : m.SpanOf span before docs stmt after) (hc : c ∈ docs) :
    span.1 ≤ c.start ∧ c.stop ≤ span.2 := by
  have hapart := m.children_apart
  rw [h.siblings] at hapart
  have hdocs := (List.pairwise_append.mp hapart).2.1
  have hstmt : c.stop ≤ stmt.start :=
    (List.pairwise_append.mp hdocs).2.2 c hc stmt List.mem_cons_self
  have hwidth := stmt.stop_eq
  refine ⟨?_, by have := h.contains.2; omega⟩
  cases docs with
  | nil => cases hc
  | cons first docs =>
    have hindent := (h.indent first rfl).1
    rcases List.mem_cons.mp hc with rfl | hc
    · exact hindent
    · have hwidth := first.stop_eq
      have := (List.pairwise_cons.mp hdocs).1 c (List.mem_append_left _ hc)
      omega

/-- A comment at the top lies in the span of a statement if it is attached to the statement,
    and else outside of it. -/
theorem SpanOf.takes_or_spares (hm : m.Readable) (h : m.SpanOf span before docs stmt after)
    (hc : c ∈ m.root.children) (hne : c ≠ stmt) :
    m.Attached c stmt ∧ span.1 ≤ c.start ∧ c.stop ≤ span.2 ∨
      ¬m.Attached c stmt ∧ (c.stop ≤ span.1 ∨ span.2 ≤ c.start) := by
  have hiff := h.attached_iff (c := c) hm
  by_cases hdocs : c ∈ docs
  · exact Or.inl ⟨hiff.mpr hdocs, h.contains_docs hdocs⟩
  · refine Or.inr ⟨mt hiff.mp hdocs, ?_⟩
    rw [h.siblings] at hc
    rcases List.mem_append.mp hc with hbefore | hrest
    · exact Or.inl (h.above c hbefore)
    rcases List.mem_append.mp hrest with hc | hrest
    · exact absurd hc hdocs
    rcases List.mem_cons.mp hrest with rfl | hafter
    · exact absurd rfl hne
    · exact Or.inr (h.below c hafter)

/-- What stands before a statement, and is no comment attached to it, ends before the span. -/
theorem SpanOf.stop_le {n : Node} (h : m.SpanOf span before docs stmt after)
    (hn : n ∈ m.root.children) (hkind : n.kind ≠ .comment) (hlt : n.start < stmt.start) :
    n.stop ≤ span.1 := by
  rw [h.siblings] at hn
  rcases List.mem_append.mp hn with hbefore | hrest
  · exact h.above n hbefore
  rcases List.mem_append.mp hrest with hdocs | hrest
  · exact absurd (beq_iff_eq.mp (Bool.and_eq_true_iff.mp (h.documents n hdocs)).1) hkind
  rcases List.mem_cons.mp hrest with rfl | hafter
  · exact absurd hlt (Nat.lt_irrefl _)
  · have := h.below n hafter
    have := h.contains.2
    have := stmt.stop_eq
    omega

theorem kind_of_statement (hstmt : stmt ∈ m.statements) : stmt.kind ≠ .comment := by
  intro hkind
  have hpart := (List.mem_filter.mp hstmt).2
  rw [Node.isComment, hkind] at hpart
  simp at hpart

theorem ne_of_comment (hstmt : stmt ∈ m.statements) (hkind : c.kind = .comment) : c ≠ stmt := by
  rintro rfl
  exact kind_of_statement hstmt hkind

/-- A module with two statements encodes a text. -/
theorem readable_of_statements {earlier : Node} (hstmt : stmt ∈ m.statements)
    (hearlier : earlier ∈ m.statements) (hlt : earlier.start < stmt.start) : m.Readable := by
  rcases m.readable_or with hm | hfault
  · exact hm
  · obtain ⟨only, honly⟩ : ∃ only, m.root.children = [only] := by
      refine List.length_eq_one_iff.mp ?_
      rw [← List.length_map Node.tree, Node.children_tree, show m.root.tree = m.tree from rfl,
        hfault]
      rfl
    have hsame : ∀ n ∈ m.statements, n = only := fun n hn =>
      List.mem_singleton.mp (honly ▸ Node.mem_children_of_mem_parts hn)
    rw [hsame stmt hstmt, hsame earlier hearlier] at hlt
    exact absurd hlt (Nat.lt_irrefl _)

end Module

/-! ### The edits of a pass -/

section

variable {m : Module} {comments : Option Comments} {settings : Settings}

/-- Holds of an edit that removes a statement, changes one from within, or adds something at
    the end of a module. -/
inductive Module.Places (m : Module) : Edit → Prop where
  | removes {stmt : Node} (h : stmt ∈ m.statements) : m.Places (m.removeStatement stmt)
  | within {stmt : Node} {e : Edit} (h : stmt ∈ m.statements) (hstart : stmt.start ≤ e.start)
    (hstop : e.stop ≤ stmt.stop) : m.Places e
  | adds {e : Edit} (h : e.start = m.source.length) : m.Places e

/-- Edits on a node below a statement keep within that statement. -/
theorem Module.places_weave {stmt d : Node} (h : stmt ∈ m.statements) (hd : stmt.Below d)
    {edits : List Edit} {out : List Char} (hwoven : Weave d.start edits d.tree.spell out) :
    ∀ e ∈ edits, m.Places e := by
  intro e he
  obtain ⟨before, after, hholds⟩ := hd.holds
  obtain ⟨hstart, -, hstop⟩ := (hwoven.hold hholds).bounds e he
  rw [← Node.stop_eq] at hstop
  exact .within h hstart hstop

/-- Every edit of a pass has such a place. -/
theorem Batch.places (hm : m.Readable) {edits : List Edit} (h : Batch comments settings m edits) :
    ∀ e ∈ edits, m.Places e := by
  cases h with
  | @normalize plan hplan =>
    have hends := normalizeExport_ends m comments settings
    rw [hplan] at hends
    cases hends with
    | plans hx _ _ hedits =>
      intro e he
      rcases List.mem_append.mp (hedits.mem_iff.mp he) with hseparate | hclass
      · split at hseparate
        · rw [List.mem_singleton.mp hseparate]
          exact .removes hx.exporting_mem
        · cases hseparate
      · obtain ⟨rest, hweave⟩ := ExportedClass.weave hx
        exact m.places_weave hx.holding_mem .refl (hweave _) e hclass
  | @extract plan hplan =>
    have hends := extractTypes_ends m settings
    rw [hplan] at hends
    cases hends with
    | plans hv _ _ hedits =>
      have hstmt := (Module.variableNamed?_spec hv).1
      rw [hedits]
      rcases Module.removeVariable_spec hm hv with ⟨-, hone⟩ | ⟨-, out, hweave⟩
      · rw [hone]
        exact List.forall_mem_singleton.mpr (.removes hstmt)
      · exact m.places_weave hstmt .refl hweave
  | build className types =>
    unfold buildNamespace
    cases hcls : m.classNamed? className with
    | none => exact List.forall_mem_singleton.mpr (.adds rfl)
    | some cls =>
      obtain ⟨stmt, hstmt, rfl, -⟩ := Module.classNamed?_spec hcls
      have htop : stmt.unwrap.topLevel = stmt :=
        (Node.below_unwrap stmt).topLevel (m.above_of_statement hstmt)
      dsimp only
      rw [htop]
      refine List.forall_mem_singleton.mpr (.within hstmt ?_ (Int.le_refl _))
      have := stmt.stop_eq
      show (stmt.start : Int) ≤ stmt.stop
      omega
  | reattach ns =>
    rcases reattachComments_edits m ns comments with
      hnone | ⟨docs, stmt, type, -, hprops, hedits⟩
    · rw [hnone]
      exact List.forall_mem_nil _
    · rw [hedits]
      obtain ⟨out, hout, -⟩ := m.weave_documented hm hprops docs
      exact m.places_weave hprops.mem_statements hprops.below hout
  | drop =>
    intro e he
    obtain ⟨stmt, hstmt, rfl⟩ := List.mem_map.mp he
    exact .removes (List.mem_filter.mp hstmt).1
  | «export» className removed => exact List.forall_mem_singleton.mpr (.adds rfl)

/-- What removing a statement does to comments.  Nothing of an earlier statement goes away with
    it, so neither does a comment inside one.  A comment at the top of the module goes away if
    it is attached to the statement, wherever on its line it begins, and else stays.  And a pass
    touches a comment at the top only by removing a statement to which it is attached. -/
theorem removal_takes_attached (m : Module) :
    (∀ stmt ∈ m.statements, ∀ earlier ∈ m.statements, earlier.start < stmt.start →
      ∀ n, earlier.Below n → n.stop ≤ (m.statementSpan stmt).1) ∧
    (∀ stmt ∈ m.statements, ∀ c ∈ m.root.children, c.kind = .comment →
      m.Attached c stmt ∧
          (m.statementSpan stmt).1 ≤ c.start ∧ c.stop ≤ (m.statementSpan stmt).2 ∨
        ¬m.Attached c stmt ∧
          (c.stop ≤ (m.statementSpan stmt).1 ∨ (m.statementSpan stmt).2 ≤ c.start)) ∧
    ∀ comments settings edits, Batch comments settings m edits →
      ∀ e ∈ edits, ∀ c ∈ m.root.children, c.kind = .comment →
        (e.stop ≤ c.start ∨ c.stop ≤ e.start) ∨
          ∃ stmt ∈ m.statements, e = m.removeStatement stmt ∧ m.Attached c stmt := by
  refine ⟨fun stmt hstmt earlier hearlier hlt n hn => ?_, fun stmt hstmt c hc hkind => ?_,
    fun comments settings edits hbatch e he c hc hkind => ?_⟩
  · obtain ⟨before, docs, after, hspan⟩ :=
      m.spanOf_statement (m.readable_of_statements hstmt hearlier hlt) hstmt
    obtain ⟨front, back, hholds⟩ := hn.holds
    have hstop : n.stop ≤ earlier.stop := by
      rw [hholds.stop_eq, Node.stop_eq, hholds.1]
      simp only [size_append]
      omega
    exact Nat.le_trans hstop (hspan.stop_le (Node.mem_children_of_mem_parts hearlier)
      (Module.kind_of_statement hearlier) hlt)
  · have hm := m.readable_of_comment hc hkind
    obtain ⟨before, docs, after, hspan⟩ := m.spanOf_statement hm hstmt
    exact hspan.takes_or_spares hm hc (m.ne_of_comment hstmt hkind)
  · have hm := m.readable_of_comment hc hkind
    cases hbatch.places hm e he with
    | @removes stmt hstmt =>
      obtain ⟨before, docs, after, hspan⟩ := m.spanOf_statement hm hstmt
      rcases hspan.takes_or_spares hm hc (m.ne_of_comment hstmt hkind) with
        ⟨hattached, -⟩ | ⟨-, hspared⟩
      · exact Or.inr ⟨stmt, hstmt, rfl, hattached⟩
      · refine Or.inl ?_
        show ((m.statementSpan stmt).2 : Int) ≤ _ ∨ _ ≤ ((m.statementSpan stmt).1 : Int)
        omega
    | @within stmt e hstmt hstart hstop =>
      have hchild : stmt ∈ m.root.children := Node.mem_children_of_mem_parts hstmt
      have := m.apart_of_ne hc hchild (m.ne_of_comment hstmt hkind)
      omega
    | adds hend =>
      have := m.stop_le_length hm hc
      omega

/-- Statements with a comment at the end of their line. -/
def trailingModule : Module := Module.ofText none
  "var a; /** a */\ntype T = 1;\nvar b; // b\ntype U = 2;\n"

/-- Of the comments at the ends of lines, the doc comment goes away with the statement below
    it, and the other one stays. -/
theorem removal_takes_attached_trailing : ∃ c₁ s₁ c₂ s₂ : Node,
    (c₁.text = "/** a */" ∧ s₁.text = "type T = 1;" ∧ trailingModule.Attached c₁ s₁ ∧
      (trailingModule.statementSpan s₁).1 ≤ c₁.start) ∧
    (c₂.text = "// b" ∧ s₂.text = "type U = 2;" ∧ ¬trailingModule.Attached c₂ s₂ ∧
      c₂.stop ≤ (trailingModule.statementSpan s₂).1) := by
  let c₁ := trailingModule.root.children.get ⟨1, by decide +kernel⟩
  let s₁ := trailingModule.statements.get ⟨1, by decide +kernel⟩
  let c₂ := trailingModule.root.children.get ⟨4, by decide +kernel⟩
  let s₂ := trailingModule.statements.get ⟨3, by decide +kernel⟩
  have hplaces : (c₁.kind = .comment ∧ c₁.text = "/** a */" ∧ s₁.text = "type T = 1;" ∧
      ¬(c₁.stop ≤ (trailingModule.statementSpan s₁).1 ∨
        (trailingModule.statementSpan s₁).2 ≤ c₁.start)) ∧
    (c₂.kind = .comment ∧ c₂.text = "// b" ∧ s₂.text = "type U = 2;" ∧
      c₂.stop ≤ (trailingModule.statementSpan s₂).1 ∧
      ¬(trailingModule.statementSpan s₂).1 ≤ c₂.start) := by decide +kernel
  obtain ⟨⟨hc₁, htext₁, htype₁, hin⟩, hc₂, htext₂, htype₂, hout, hnot⟩ := hplaces
  have hmem₁ := (removal_takes_attached trailingModule).2.1 s₁ (List.get_mem _ _) c₁
    (List.get_mem _ _) hc₁
  have hmem₂ := (removal_takes_attached trailingModule).2.1 s₂ (List.get_mem _ _) c₂
    (List.get_mem _ _) hc₂
  refine ⟨c₁, s₁, c₂, s₂, ⟨htext₁, htype₁, ?_⟩, htext₂, htype₂, ?_, hout⟩
  · obtain ⟨hattached, hstart, -⟩ := hmem₁.resolve_right fun h => hin h.2
    exact ⟨hattached, hstart⟩
  · exact (hmem₂.resolve_left fun h => hnot h.2.1).1

end

end ComponentDecl
