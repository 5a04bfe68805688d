import ComponentDecl.Proofs.Module.Spans
import ComponentDecl.Proofs.Pass.Namespace

/-! # Comments of props as insertions

    The fourth stage replaces each signature that has a comment together with the space
    before it, by the comment and the same text read again.  What it makes is the former
    text with nothing but the comments put in, each on a line of its own above the space of
    its signature.

    Key theorems:
    - `Weave.interleave_eq`: what a batch weaves, said on bytes
    - `reattachComments_inserts`: the fourth stage on any module
-/

namespace ComponentDecl

open Syntax Text

variable {m : Module} {comments : Option Comments} {ns : String} {stmt type : Node}

/-- What a batch weaves into characters is what it makes of their bytes.  The induction is on
    the edits; `before` is all that stands in front of the woven text. -/
theorem Weave.interleave_eq {offset : Nat} {edits : List Edit} {text out : List Char}
    (h : Weave offset edits text out) {before : List Char} (hbefore : size before = offset) :
    Edit.interleave (encodeChars (before ++ text)) offset edits = encodeChars out := by
  induction h generalizing before with
  | done offset text =>
    rw [Edit.interleave, encodeChars_append, ← hbefore, size, List.drop_left]
  | @edit offset edits rest out kept gone text h ih =>
    have hplace : size (before ++ (kept ++ gone)) = offset + size kept + size gone := by
      rw [size_append, size_append, hbefore, Nat.add_assoc]
    have hrest := ih hplace
    have hkept := bytesBetween_eq before kept (gone ++ rest)
    rw [hbefore] at hkept
    simp only [List.append_assoc] at hrest hkept ⊢
    rw [Edit.interleave, Int.toNat_natCast, Int.toNat_natCast, hkept, hrest, encodeChars_append,
      encodeChars_append]
    rfl

/-- The comments of a type's signatures as insertions, each on a line of its own at the full
    start of its signature. -/
def docInsertions (docs : Comments) (type : Node) : List Edit :=
  (documentedProps docs type).map fun c =>
    ⟨c.1.fullStart, c.1.fullStart, "\n" ++ c.2 ++ "\n"⟩

/-- Holds of a node with nothing but white space and comments between its full start and
    the node. -/
def Module.SpacedBefore (m : Module) (n : Node) : Prop :=
  ∃ space, Spacing space ∧ n.start = n.fullStart + size space ∧
    bytesBetween m.source n.fullStart n.start = encodeChars space

namespace Module.PropsType

theorem root_below (h : m.PropsType ns stmt type) : m.root.Below type :=
  (Node.Below.refl.child (Node.mem_children_of_mem_parts h.mem_statements)).trans h.below

theorem full (h : m.PropsType ns stmt type) : Full type.tree :=
  h.below.full (m.full_statement h.readable h.mem_statements)

/-- The fourth batch weaves what the insertions of the comments weave. -/
theorem weave_docInsertions (h : m.PropsType ns stmt type) (docs : Comments) :
    ∃ out, Weave 0 (m.documentEdits docs type) m.chars out ∧
      Weave 0 (docInsertions docs type) m.chars out := by
  have hm := h.readable
  obtain ⟨out, hout, -⟩ := m.weave_documented hm h docs
  obtain ⟨before, after, hholds⟩ := h.root_below.holds
  have hwoven : Weave 0 (m.documentEdits docs type) m.chars (before ++ (out ++ after)) :=
    hout.hold hholds
  have hsame : docInsertions docs type = (documentedProps docs type).map fun c =>
      (⟨fullStartFrom type.start c.1.place.before, fullStartFrom type.start c.1.place.before,
        "\n" ++ c.2 ++ "\n"⟩ : Edit) := by
    refine List.map_congr_left fun c hc => ?_
    rw [fullStart_eq (Node.mem_children_of_documented hc) h.above_ne]
  refine ⟨before ++ (out ++ after), hwoven, ?_⟩
  rw [Module.documentEdits, fullReplacements, List.map_map] at hwoven
  rw [hsame]
  -- An edit puts the comment in front of what it covers.
  refine hwoven.insertions (fun c => "\n" ++ c.2 ++ "\n") size_nil fun c hc x y z hsplit hx hy => ?_
  have hsource : m.source = encodeChars (x ++ (y ++ z)) := by
    rw [← hsplit]
    exact hm
  exact m.documentedText_toList h hc hsource hx hy

/-- The fourth batch makes the text that the insertions of the comments make. -/
theorem applyEdits_documented (h : m.PropsType ns stmt type) (docs : Comments) :
    m.applyEdits (m.documentEdits docs type) =
      .ok (m.withSource (Edit.interleave m.source 0 (docInsertions docs type))) := by
  obtain ⟨out, hedits, hinsertions⟩ := h.weave_docInsertions docs
  have hsource : m.source = encodeChars m.chars := h.readable
  have happly := hedits.applyAll (m.rising_documented h.readable h docs) (.refl _)
  have hmade := hinsertions.interleave_eq size_nil
  rw [List.nil_append, ← hsource] at hmade
  rw [← hsource] at happly
  rw [applyEdits, happly, hmade]
  rfl

/-- No two signatures of the type have one full start: each signature covers something, and
    the next one with the space before it comes after it. -/
theorem fullStart_rising (h : m.PropsType ns stmt type) :
    (type.partsOf .propertySignature).Pairwise fun a b => a.fullStart < b.fullStart := by
  have hall : (((type.partsOf .propertySignature).map fun n => (n, "")).map (·.1)).Sublist
      (type.partsOf .propertySignature) := by
    rw [List.map_map]
    show (List.map id _).Sublist _
    rw [List.map_id]
  obtain ⟨out, hout, hcovers⟩ := weave_signatures h.full hall
  have hapart := hout.apart
  rw [fullReplacements, List.map_map] at hapart hcovers
  refine (List.pairwise_map.mp hapart).imp_of_mem fun {a b} ha hb hab => ?_
  have hstart := List.forall_mem_map.mp hcovers a ha
  rw [fullStart_eq (Node.mem_children_of_mem_partsOf ha) h.above_ne,
    fullStart_eq (Node.mem_children_of_mem_partsOf hb) h.above_ne]
  exact Int.ofNat_lt.mp (Int.lt_of_lt_of_le hstart hab)

theorem spacedBefore (h : m.PropsType ns stmt type) {n : Node} (hn : n ∈ type.children) :
    m.SpacedBefore n := by
  obtain ⟨before, space, after, hsource, hfull, hstart, hspacing⟩ :=
    m.source_of_child h.readable h.root_below hn
  have hbetween := bytesBetween_eq before space (n.tree.spell ++ after)
  rw [List.append_assoc, ← hsource, ← hfull] at hbetween
  rw [size_append, ← hfull] at hstart
  exact ⟨space, hspacing h.full, hstart, by rw [hstart, hbetween]⟩

end Module.PropsType

/-- The fourth stage puts the comments of the signatures in, each on a line of its own at the
    full start of its signature, and changes nothing else: only white space and comments
    stand between, and no two signatures share such a place.  It answers how many it put in.
    Without comments, or without an object type as the alias of the props in the first
    namespace of that name, it changes nothing and answers zero. -/
theorem reattachComments_inserts (s : Session) (ns : String) (comments : Option Comments) :
    ∃ count s', (Pass.perform fun m => reattachComments m ns comments).run.run s = (.ok count, s') ∧
      ((∃ docs stmt type, comments = some docs ∧ docs.props ≠ [] ∧
          s.module.PropsType ns stmt type ∧
          s'.module = s.module.withSource
            (Edit.interleave s.module.source 0 (docInsertions docs type)) ∧
          count = (docInsertions docs type).length ∧
          ((type.partsOf .propertySignature).Pairwise fun a b => a.fullStart < b.fullStart) ∧
          ∀ signature ∈ type.partsOf .propertySignature, s.module.SpacedBefore signature) ∨
        ((comments.all (·.props.isEmpty) = true ∨
            ∀ stmt type, ¬ s.module.PropsType ns stmt type) ∧
          s'.module = s.module ∧ count = 0)) := by
  have hresult := reattachComments_result s.module ns comments
  rw [Pass.run_perform]
  rcases reattachComments_plans s.module ns comments with
    ⟨hnone, hedits⟩ | ⟨docs, stmt, type, hdocs, htype, hedits⟩
  · have happly : s.module.applyEdits (reattachComments s.module ns comments).edits =
        .ok s.module := by
      rw [hedits, Module.applyEdits_nil]
    obtain ⟨events, hrun⟩ := Pass.carryOut_completes happly
    refine ⟨_, _, hrun, Or.inr ⟨hnone.imp_left fun hfilter => ?_, rfl, ?_⟩⟩
    · cases comments with
      | none => rfl
      | some docs => simpa using hfilter
    · rw [hresult, hedits]
      rfl
  · have happly := htype.applyEdits_documented docs
    rw [← hedits] at happly
    obtain ⟨events, hrun⟩ := Pass.carryOut_completes happly
    obtain ⟨hcomments, hprops⟩ := Option.filter_eq_some_iff.mp hdocs
    refine ⟨_, _, hrun, Or.inl ⟨docs, stmt, type, hcomments, by simpa using hprops, htype, rfl, ?_,
      htype.fullStart_rising, fun signature h =>
        htype.spacedBefore (Node.mem_children_of_mem_partsOf h)⟩⟩
    rw [hresult, hedits]
    simp [Module.documentEdits, fullReplacements, docInsertions]

/-- A module with a comment between two signatures. -/
def aliasedModule : Module := Module.ofText none
  "namespace A \x7b type Props = \x7b a: 1; // b\n 'b': 2 \x7d; \x7d\n"

example : ((Pass.perform fun m => reattachComments m "A" (some ⟨none, [("b", "/** d */")]⟩)).run.run
      ⟨aliasedModule, []⟩).2.module.source =
    encode "namespace A \x7b type Props = \x7b a: 1;\n/** d */\n // b\n 'b': 2 \x7d; \x7d\n" := by
  decide +kernel

end ComponentDecl
