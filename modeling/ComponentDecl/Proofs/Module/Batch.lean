import ComponentDecl.Proofs.Module.Statements
import Mathlib.Data.List.Perm.Basic

/-! # A batch on a module

    A batch is described by what becomes of each statement: it stays, it goes,
    or edits put other trees in its place.  From the description follow the
    edits and the text that they make.  How a parser reads that text is another
    matter.  It reads locally if it finds the trees that stay and those that the
    new texts spell; then the rows of the module are known as well.

    Key theorems:
    - `Module.applyEdits_changes`: the text that a batch makes of a module
    - `Module.left_changes`, `Module.rows_changes`: the rows in which it is read, if
      it is read locally
-/

namespace ComponentDecl

open Syntax Text

/-! ### Texts made of visible parts -/

/-- A text that is made of given parts, with white space before, between and
    after them. -/
inductive MadeOf : List (List Char) → List Char → Prop where
  | nil {gap : List Char} (hgap : Spaces gap) : MadeOf [] gap
  | cons {gap part rest : List Char} {parts : List (List Char)} (hgap : Spaces gap)
    (h : MadeOf parts rest) : MadeOf (part :: parts) (gap ++ (part ++ rest))

theorem madeOf_pieces {gap : List Char} {ps : List Piece} (hgap : Spaces gap)
    (hps : ∀ p ∈ ps, Spaces p.gap) :
    MadeOf ((ps.map (·.tree)).map Tree.spell) (gap ++ piecesText ps) := by
  induction ps generalizing gap with
  | nil =>
    rw [piecesText_nil, List.append_nil]
    exact .nil hgap
  | cons p ps ih =>
    have hps := List.forall_mem_cons.mp hps
    rw [List.map_cons, List.map_cons, piecesText_cons]
    exact .cons hgap (ih hps.1 hps.2)

/-! ### What is expected of a parser -/

/-- A tree that a parser is expected to find. -/
inductive Expected where
  /-- A tree that was there before. -/
  | same (t : Tree)
  /-- A tree that a text spells. -/
  | made (text : List Char) (spells : Tree → Bool)

/-- Holds of a text that is one comment and nothing more. -/
def CompleteComment (text : List Char) : Prop :=
  (parse text).nodes = [.token none .comment text]

namespace Expected

/-- The characters of an expected tree. -/
def text : Expected → List Char
  | .same t => t.spell
  | .made text _ => text

/-- Holds of a tree that is as expected. -/
def Reads : Expected → Tree → Prop
  | .same t, u => u = t
  | .made text spells, u => u.spell = text ∧ spells u = true

instance : (e : Expected) → DecidablePred e.Reads
  | .same _, _ => inferInstanceAs (Decidable (_ = _))
  | .made _ _, _ => inferInstanceAs (Decidable (_ ∧ _))

/-- A comment, which is read as it is read alone. -/
def comment (text : List Char) : Expected :=
  .made text fun t => decide ((parse text).nodes = [t])

theorem reads_comment {text : List Char} (h : CompleteComment text) {t : Tree}
    (ht : (comment text).Reads t) : t = .token none .comment text := by
  have hread : [Tree.token none .comment text] = [t] := h.symm.trans (decide_eq_true_eq.mp ht.2)
  exact (List.singleton_inj.mp hread).symm

theorem Reads.spell_eq {e : Expected} {t : Tree} (h : e.Reads t) : t.spell = e.text := by
  cases e with
  | same u => exact congrArg Tree.spell h
  | made text spells => exact h.1

end Expected

/-- A module that is made of the texts of expected trees is read as these
    trees. -/
def Module.RereadsAs (m : Module) (es : List Expected) : Prop :=
  MadeOf (es.map Expected.text) m.chars → List.Forall₂ Expected.Reads es m.tree.nodes

theorem forall₂_same {ts us : List Tree}
    (h : List.Forall₂ Expected.Reads (ts.map .same) us) : us = ts := by
  induction ts generalizing us with
  | nil => cases h; rfl
  | cons t ts ih =>
    cases h with
    | cons ht hts => rw [ih hts, show _ = t from ht]

theorem forall₂_append {es es' : List Expected} {us : List Tree}
    (h : List.Forall₂ Expected.Reads (es ++ es') us) :
    ∃ us₁ us₂, us = us₁ ++ us₂ ∧ List.Forall₂ Expected.Reads es us₁ ∧
      List.Forall₂ Expected.Reads es' us₂ := by
  induction es generalizing us with
  | nil => exact ⟨[], us, rfl, .nil, h⟩
  | cons e es ih =>
    cases h with
    | cons hu hus =>
      obtain ⟨us₁, us₂, rfl, h₁, h₂⟩ := ih hus
      exact ⟨_, us₂, rfl, .cons hu h₁, h₂⟩

theorem forall₂_spell {es : List Expected} {us : List Tree}
    (h : List.Forall₂ Expected.Reads es us) : us.map Tree.spell = es.map Expected.text := by
  induction h with
  | nil => rfl
  | cons h _ ih => rw [List.map_cons, List.map_cons, h.spell_eq, ih]

/-! ### Descriptions -/

/-- What becomes of a statement that does not just stay. -/
inductive Change where
  /-- The statement goes away, with its doc comments. -/
  | goes
  /-- Edits put other trees, one on a line, in the place of the statement. -/
  | becomes (edits : List Edit) (trees : List Expected)

/-- The edits of a change. -/
def Module.changeEdits (m : Module) (n : Node) : Option Change → List Edit
  | none => []
  | some .goes => [m.removeStatement n]
  | some (.becomes edits _) => edits

/-- The trees that are expected where a row was. -/
def Row.expect (r : Row) : Option Change → List Expected
  | none => (r.pieces.map (·.tree)).map .same
  | some .goes => []
  | some (.becomes _ trees) => (r.docs.map (·.tree)).map .same ++ trees

namespace Module

variable {m : Module}

/-- The edits of a description, in the order of the rows. -/
def editsOf (m : Module) (g : Node → Option Change) : List Edit :=
  m.located.flatMap fun rn => m.changeEdits rn.2 (g rn.2)

/-- The trees that are expected after a batch. -/
def expect (m : Module) (g : Node → Option Change) : List Expected :=
  m.located.flatMap fun rn => rn.1.expect (g rn.2)

end Module

/-- The edits on a statement make the texts of the trees in its place, and the
    last of them is no doc comment. -/
def Change.FitsAt (n : Node) : Change → Prop
  | .goes => True
  | .becomes edits trees =>
    Weave n.start edits n.tree.spell (['\n'].intercalate (trees.map Expected.text)) ∧
      ∃ front e, trees = front ++ [e] ∧ ∀ t, e.Reads t → t.isDocComment = false

/-! ### Fates -/

/-- The fate of a statement that changes, given the trees in its place. -/
def Change.fate (trees : List Tree) : Change → Fate
  | .goes => .goes
  | .becomes edits _ => .turns edits trees

namespace Module

variable {m : Module}

/-- The fates of statements, given the trees in their places. -/
def fateOf (g : Node → Option Change) (trees : Node → List Tree) (n : Node) : Option Fate :=
  (g n).map (Change.fate (trees n))

/-- The fates of the rows of a module. -/
def fates (m : Module) (f : Node → Option Fate) : List (Row × Fate) :=
  m.located.map fun rn => (rn.1, (f rn.2).getD rn.1.stays)

/-- The gap and the rows that a batch leaves. -/
def left (m : Module) (f : Node → Option Fate) : List Char × List Row :=
  settled true m.lead m.lead (m.fates f)

theorem fates_rows (m : Module) (f : Node → Option Fate) : (m.fates f).map (·.1) = m.rows := by
  rw [fates, List.map_map]
  exact located_rows m

theorem size_rowsText_concat (before : List Row) (r : Row) :
    size (rowsText (before ++ [r])) = size (rowsText before) + size r.text := by
  rw [rowsText_append, rowsText_cons, Row.text_eq]
  simp

/-- The edits of a description are those of its rows. -/
theorem batchEdits_fates (hm : m.Readable) (g : Node → Option Change) (trees : Node → List Tree) :
    batchEdits (size m.lead) true m.lead (m.fates (fateOf g trees)) = m.editsOf g := by
  -- The induction is on the rows to come; those before them say where they start.
  have key : ∀ (rs before : List Row), m.rows = before ++ rs →
      batchEdits (size m.lead + size (rowsText before)) (m.gapAfter before).1
        (m.gapAfter before).2
        ((m.locate before rs).map fun rn => (rn.1, (fateOf g trees rn.2).getD rn.1.stays)) =
      (m.locate before rs).flatMap fun rn => m.changeEdits rn.2 (g rn.2) := by
    intro rs
    induction rs with
    | nil => exact fun _ _ => rfl
    | cons r rs ih =>
      intro before hrows
      have hrest := ih (before ++ [r]) (by rw [hrows]; simp)
      rw [gapAfter_concat, size_rowsText_concat, ← Nat.add_assoc] at hrest
      rw [locate, List.map_cons, List.flatMap_cons]
      show _ ++ batchEdits _ false r.last.gap _ = _
      rw [hrest]
      congr 1
      dsimp only [fateOf]
      cases g (m.nodeAt before r) with
      | none => rfl
      | some change =>
        cases change with
        | goes => rw [changeEdits, removeStatement_eq hm hrows]; rfl
        | becomes edits trees => rfl
  exact key m.rows [] rfl

end Module

/-- The edits on a statement make the text of given trees. -/
def Change.Makes (n : Node) (trees : List Tree) : Change → Prop
  | .goes => True
  | .becomes edits _ => trees ≠ [] ∧ Weave n.start edits n.tree.spell (linedText trees)

namespace Module

variable {m : Module}

theorem fitsFrom_fates {g : Node → Option Change} {trees : Node → List Tree}
    (h : ∀ rn ∈ m.located, ∀ change, g rn.2 = some change → change.Makes rn.2 (trees rn.2)) :
    FitsFrom (size m.lead) (m.fates (fateOf g trees)) := by
  have key : ∀ (rs before : List Row),
      (∀ rn ∈ m.locate before rs, ∀ change, g rn.2 = some change →
        change.Makes rn.2 (trees rn.2)) →
      FitsFrom (size m.lead + size (rowsText before))
        ((m.locate before rs).map fun rn => (rn.1, (fateOf g trees rn.2).getD rn.1.stays)) := by
    intro rs
    induction rs with
    | nil => exact fun _ _ => trivial
    | cons r rs ih =>
      intro before h
      rw [locate, List.forall_mem_cons] at h
      have hrest := ih (before ++ [r]) h.2
      rw [size_rowsText_concat, ← Nat.add_assoc] at hrest
      refine ⟨?_, hrest⟩
      have hr := h.1
      dsimp only [fateOf] at hr ⊢
      cases hg : g (m.nodeAt before r) with
      | none => exact r.fits_stays _
      | some change =>
        cases change with
        | goes => trivial
        | becomes edits _ =>
          obtain ⟨hne, hout⟩ := hr _ hg
          exact ⟨hne, Weave.prepend (piecesText r.docs) hout⟩
  exact key m.rows [] h

/-- The edits of a description are ordered if those on each statement are and
    none of them waits for the end of the statement. -/
theorem rising_editsOf (hm : m.Readable) {g : Node → Option Change} {trees : Node → List Tree}
    (hmakes : ∀ rn ∈ m.located, ∀ change, g rn.2 = some change → change.Makes rn.2 (trees rn.2))
    (hrises : ∀ rn ∈ m.located, ∀ edits es, g rn.2 = some (.becomes edits es) →
      Rising edits ∧ ∀ e ∈ edits, e.start < rn.2.stop) : Rising (m.editsOf g) := by
  obtain ⟨-, hclear, -⟩ := pieces_spec hm
  -- The induction is on the rows that follow; `before` keeps where they start.
  have key : ∀ (rs before : List Row), (∀ r ∈ rs, r.last.tree.spell ≠ []) →
      (∀ rn ∈ m.locate before rs, ∀ edits es, g rn.2 = some (.becomes edits es) →
        Rising edits ∧ ∀ e ∈ edits, e.start < rn.2.stop) →
      RisesFrom (size m.lead + size (rowsText before))
        ((m.locate before rs).map fun rn => (rn.1, (fateOf g trees rn.2).getD rn.1.stays)) := by
    intro rs
    induction rs with
    | nil => exact fun _ _ _ => trivial
    | cons r rs ih =>
      intro before hvisible h
      rw [List.forall_mem_cons] at hvisible
      rw [locate, List.forall_mem_cons] at h
      have hrest := ih (before ++ [r]) hvisible.2 h.2
      rw [size_rowsText_concat, ← Nat.add_assoc] at hrest
      refine ⟨?_, hrest⟩
      have hr := h.1
      dsimp only [fateOf] at hr ⊢
      cases hg : g (m.nodeAt before r) with
      | none => exact r.rises_stays _
      | some change =>
        cases change with
        | goes => exact hvisible.1
        | becomes edits es =>
          obtain ⟨hrising, hstop⟩ := hr _ _ hg
          refine ⟨hrising, fun e he => ?_⟩
          have hplace : (m.nodeAt before r).stop = size m.lead + size (rowsText before) +
              size (piecesText r.docs ++ r.last.tree.spell) := by
            rw [Node.stop_eq, size_append, ← Nat.add_assoc]
            rfl
          rw [← hplace]
          exact hstop e he
  rw [← batchEdits_fates hm g trees]
  refine rising_batch (fitsFrom_fates hmakes) (key m.rows [] (fun r hr => ?_) hrises)
  refine (hclear r.last ?_).2.1.ne_nil
  rw [← flatMap_rows]
  exact List.mem_flatMap.mpr ⟨r, hr, by simp [Row.pieces]⟩

/-! ### The text that a batch makes -/

theorem applyEdits_left (hm : m.Readable) {g : Node → Option Change} {trees : Node → List Tree}
    {given : List Edit}
    (hmakes : ∀ rn ∈ m.located, ∀ change, g rn.2 = some change → change.Makes rn.2 (trees rn.2))
    (hrising : Rising (m.editsOf g)) (hperm : given.Perm (m.editsOf g)) :
    m.applyEdits given = .ok (m.withSource (encodeChars
      ((m.left (fateOf g trees)).1 ++ rowsText (m.left (fateOf g trees)).2))) := by
  have hwoven :=
    weave_batch (cutBefore_suffix true m.lead) (Nat.le_refl _) (fitsFrom_fates hmakes)
  rw [Nat.sub_self, batchEdits_fates hm, fates_rows, ← chars_rows] at hwoven
  have hsource : m.source = encodeChars m.chars := hm
  rw [applyEdits, hsource, hwoven.applyAll hrising hperm]
  rfl

theorem left_spaces (hm : m.Readable) (f : Node → Option Fate) :
    Spaces (m.left f).1 ∧ ∀ p ∈ (m.left f).2.flatMap Row.pieces, Spaces p.gap := by
  obtain ⟨hlead, hpieces, -⟩ := pieces_spec hm
  refine spaces_settled hlead fun rf hrf p hp => (hpieces p ?_).2.2
  rw [← flatMap_rows, ← fates_rows m f]
  exact List.mem_flatMap.mpr ⟨rf.1, List.mem_map_of_mem hrf, hp⟩

end Module

/-- Trees that have the expected texts. -/
def Change.SpelledBy (trees : List Tree) : Change → Prop
  | .goes => True
  | .becomes _ es => trees.map Tree.spell = es.map Expected.text

theorem Change.FitsAt.makes {n : Node} {change : Change} {trees : List Tree}
    (h : change.FitsAt n) (hs : change.SpelledBy trees) : change.Makes n trees := by
  cases change with
  | goes => trivial
  | becomes edits es =>
    obtain ⟨hout, front, e, rfl, -⟩ := h
    have hs : trees.map Tree.spell = (front ++ [e]).map Expected.text := hs
    refine ⟨?_, ?_⟩
    · rintro rfl
      simp at hs
    · rw [linedText_eq, hs]
      exact hout

/-- What a change leaves of a row, from left to right. -/
def Row.flat (r : Row) (trees : List Tree) : Option Change → List Tree
  | none => r.pieces.map (·.tree)
  | some .goes => []
  | some (.becomes _ _) => r.docs.map (·.tree) ++ trees

/-- The rows that a change leaves of a row. -/
def Row.revised (r : Row) (trees : List Tree) : Option Change → List (List Tree × Tree)
  | none => [r.trees]
  | some .goes => []
  | some (.becomes _ _) => (ComponentDecl.rows (r.docs ++ lined trees [])).map Row.trees

namespace Module

variable {m : Module} {g : Node → Option Change} {trees : Node → List Tree}

theorem left_flat (m : Module) (g : Node → Option Change) (trees : Node → List Tree) :
    ((m.left (fateOf g trees)).2.flatMap Row.pieces).map (·.tree) =
      m.located.flatMap fun rn => rn.1.flat (trees rn.2) (g rn.2) := by
  rw [left, flat_settled, fates, List.flatMap_map]
  congr 1
  funext rn
  dsimp only [fateOf]
  cases g rn.2 with
  | none => simp [Row.stays, Fate.flat, Row.flat, Row.pieces]
  | some change => cases change <;> rfl

/-- The rows that the fate of a statement leaves. -/
theorem trees_fateOf {rn : Row × Node} (hrn : rn ∈ m.located) (g : Node → Option Change)
    (trees : Node → List Tree) : ((fateOf g trees rn.2).getD rn.1.stays).trees rn.1 =
      rn.1.revised (trees rn.2) (g rn.2) := by
  dsimp only [fateOf]
  cases g rn.2 with
  | none =>
    have hr := documents_of_located hrn
    have hrow := rows_flatMap (grouped_cons.mpr ⟨hr, Or.inl rfl, nofun, List.isChain_nil⟩ :
      Grouped [rn.1])
    have hlined := trees_lined rn.1.docs [rn.1.last.tree] rn.1.last.gap
    show (ComponentDecl.rows (rn.1.docs ++ lined [rn.1.last.tree] [])).map Row.trees = _
    rw [← hlined]
    rw [List.flatMap_singleton] at hrow
    exact congrArg (List.map Row.trees) hrow
  | some change => cases change <;> rfl

theorem left_rows (m : Module) (g : Node → Option Change) (trees : Node → List Tree) :
    (m.left (fateOf g trees)).2.map Row.trees =
      m.located.flatMap fun rn => rn.1.revised (trees rn.2) (g rn.2) := by
  rw [left, trees_settled, fates, List.flatMap_map]
  exact List.flatMap_congr fun rn hrn => trees_fateOf hrn g trees

/-- Texts of expected trees, as trees that are known to no grammar. -/
def placeholders (g : Node → Option Change) (n : Node) : List Tree :=
  match g n with
  | some (.becomes _ es) => es.map fun e => .token none .error e.text
  | _ => []

theorem placeholders_spelled {n : Node} {change : Change} (h : g n = some change) :
    change.SpelledBy (placeholders g n) := by
  cases change with
  | goes => trivial
  | becomes edits es =>
    rw [placeholders, h]
    show (es.map _).map Tree.spell = _
    rw [List.map_map]
    exact List.map_congr_left fun e _ => Tree.spell_token _ _ _

/-- A batch that fits its description makes a text of the expected parts. -/
theorem applyEdits_changes (hm : m.Readable) {given : List Edit}
    (hfits : ∀ rn ∈ m.located, ∀ change, g rn.2 = some change → change.FitsAt rn.2)
    (hrising : Rising (m.editsOf g)) (hperm : given.Perm (m.editsOf g)) :
    ∃ m', m.applyEdits given = .ok m' ∧ m'.Readable ∧
      MadeOf ((m.expect g).map Expected.text) m'.chars := by
  refine ⟨_, @applyEdits_left m hm g (placeholders g) _ (fun rn hrn change h => ?_) hrising hperm,
    readable_of_source rfl, ?_⟩
  · exact (hfits rn hrn change h).makes (placeholders_spelled h)
  obtain ⟨hspaces, hpieces⟩ := left_spaces hm (fateOf g (placeholders g))
  have hmade := madeOf_pieces hspaces hpieces
  -- The trees that stand in for what is read are spelled as what is expected.
  have hparts : (((m.left (fateOf g (placeholders g))).2.flatMap Row.pieces).map
      (·.tree)).map Tree.spell = (m.expect g).map Expected.text := by
    rw [left_flat, expect, List.map_flatMap, List.map_flatMap]
    congr 1
    funext rn
    cases hg : g rn.2 with
    | none => simp [Row.flat, Row.expect, Expected.text]
    | some change =>
      cases change with
      | goes => rfl
      | becomes edits es =>
        have : (placeholders g rn.2).map Tree.spell = es.map Expected.text :=
          placeholders_spelled hg
        simp [Row.flat, Row.expect, this, Expected.text]
  rw [hparts] at hmade
  rwa [chars_of_source rfl]

/-- Holds of edits that can be carried out on a module and that make a text of a
    text. -/
def Carries (m : Module) (edits : List Edit) : Prop :=
  ∃ m', m.applyEdits edits = .ok m' ∧ (m.Readable → m'.Readable)

/-- The trees in the places of changed statements can be told apart, for no two
    statements start at one place. -/
theorem exists_trees {l : List (Row × Node)}
    (hl : l.Pairwise fun a b => a.2.start < b.2.start) {us : List Tree}
    (h : List.Forall₂ Expected.Reads (l.flatMap fun rn => rn.1.expect (g rn.2)) us) :
    ∃ trees : Node → List Tree, us = l.flatMap (fun rn => rn.1.flat (trees rn.2) (g rn.2)) ∧
      ∀ rn ∈ l, ∀ edits es, g rn.2 = some (.becomes edits es) →
        List.Forall₂ Expected.Reads es (trees rn.2) := by
  induction l generalizing us with
  | nil =>
    cases h
    exact ⟨fun _ => [], rfl, nofun⟩
  | cons rn l ih =>
    obtain ⟨hfirst, hl⟩ := List.pairwise_cons.mp hl
    rw [List.flatMap_cons] at h
    obtain ⟨us₁, us₂, rfl, h₁, h₂⟩ := forall₂_append h
    obtain ⟨trees, rfl, htrees⟩ := ih hl h₂
    -- The trees of the first row, by what becomes of it.
    obtain ⟨ts, hts, hreads⟩ : ∃ ts, us₁ = rn.1.flat ts (g rn.2) ∧
        ∀ edits es, g rn.2 = some (.becomes edits es) → List.Forall₂ Expected.Reads es ts := by
      cases hg : g rn.2 with
      | none =>
        rw [hg, Row.expect] at h₁
        exact ⟨[], forall₂_same h₁, nofun⟩
      | some change =>
        cases change with
        | goes =>
          rw [hg] at h₁
          cases h₁
          exact ⟨[], rfl, nofun⟩
        | becomes edits es =>
          rw [hg, Row.expect] at h₁
          obtain ⟨vs, ws, rfl, hvs, hws⟩ := forall₂_append h₁
          refine ⟨ws, by rw [forall₂_same hvs]; rfl, fun edits' es' h => ?_⟩
          cases h
          exact hws
    -- No later row starts where the first one does, so one function can tell them apart.
    obtain ⟨chosen, hthis, hothers⟩ : ∃ chosen : Node → List Tree, chosen rn.2 = ts ∧
        ∀ rn' ∈ l, chosen rn'.2 = trees rn'.2 :=
      ⟨fun n => if n.start = rn.2.start then ts else trees n, if_pos rfl,
        fun rn' hrn' => if_neg (Nat.ne_of_gt (hfirst rn' hrn'))⟩
    refine ⟨chosen, ?_, fun rn' hrn' => ?_⟩
    · rw [List.flatMap_cons, hthis, hts]
      congr 1
      refine List.flatMap_congr fun rn' hrn' => ?_
      rw [hothers rn' hrn']
    · rcases List.mem_cons.mp hrn' with rfl | hrn'
      · rw [hthis]
        exact hreads
      · rw [hothers rn' hrn']
        exact htrees rn' hrn'

/-- If the text that a batch makes is read locally, the trees of the module are
    the former ones, with others where a statement changed. -/
theorem nodes_changes (hm : m.Readable) {m' : Module} {given : List Edit}
    (hfits : ∀ rn ∈ m.located, ∀ change, g rn.2 = some change → change.FitsAt rn.2)
    (hrising : Rising (m.editsOf g)) (hperm : given.Perm (m.editsOf g))
    (happly : m.applyEdits given = .ok m') (hlocal : m'.RereadsAs (m.expect g)) :
    m'.Readable ∧ ∃ trees : Node → List Tree,
      (∀ rn ∈ m.located, ∀ edits es, g rn.2 = some (.becomes edits es) →
        List.Forall₂ Expected.Reads es (trees rn.2)) ∧
      m'.tree.nodes = m.located.flatMap fun rn => rn.1.flat (trees rn.2) (g rn.2) := by
  obtain ⟨m'', hm'', hreadable, hmade⟩ := applyEdits_changes hm hfits hrising hperm
  obtain rfl : m'' = m' := by
    rw [hm''] at happly
    exact Except.ok.inj happly
  obtain ⟨trees, hnodes, htrees⟩ := exists_trees (located_rising hm) (hlocal hmade)
  exact ⟨hreadable, trees, htrees, hnodes⟩

/-- The edits on a statement make the text of the trees that are read in its place. -/
theorem makes_of_reads
    (hfits : ∀ rn ∈ m.located, ∀ change, g rn.2 = some change → change.FitsAt rn.2)
    (htrees : ∀ rn ∈ m.located, ∀ edits es, g rn.2 = some (.becomes edits es) →
      List.Forall₂ Expected.Reads es (trees rn.2)) :
    ∀ rn ∈ m.located, ∀ change, g rn.2 = some change → change.Makes rn.2 (trees rn.2) := by
  intro rn hrn change hg
  refine (hfits rn hrn change hg).makes ?_
  cases change with
  | goes => trivial
  | becomes edits es => exact forall₂_spell (htrees rn hrn edits es hg)

/-- If the text that a batch makes is read locally, the rows of the module are
    those that the batch leaves, with the gaps that it leaves. -/
theorem left_changes (hm : m.Readable) {m' : Module} {given : List Edit}
    (hfits : ∀ rn ∈ m.located, ∀ change, g rn.2 = some change → change.FitsAt rn.2)
    (hrising : Rising (m.editsOf g)) (hperm : given.Perm (m.editsOf g))
    (happly : m.applyEdits given = .ok m') (hlocal : m'.RereadsAs (m.expect g)) :
    ∃ trees : Node → List Tree,
      (∀ rn ∈ m.located, ∀ edits es, g rn.2 = some (.becomes edits es) →
        List.Forall₂ Expected.Reads es (trees rn.2)) ∧
      m'.lead = (m.left (fateOf g trees)).1 ∧ m'.rows = (m.left (fateOf g trees)).2 := by
  obtain ⟨-, trees, htrees, hnodes⟩ := nodes_changes hm hfits hrising hperm happly hlocal
  refine ⟨trees, htrees, ?_⟩
  have hleft := applyEdits_left hm (makes_of_reads hfits htrees) hrising hperm
  have hsource : m'.source = encodeChars ((m.left (fateOf g trees)).1 ++
      rowsText (m.left (fateOf g trees)).2) := by
    rw [happly] at hleft
    rw [Except.ok.inj hleft]
    rfl
  -- The rows that are left group their trees as a module does, for each new text ends in a tree.
  have hgrouped : Grouped (m.left (fateOf g trees)).2 := by
    refine grouped_settled (by rw [fates_rows]; exact m.grouped_moduleRows) fun rf hrf => ?_
    obtain ⟨rn, hrn, rfl⟩ := List.mem_map.mp hrf
    dsimp only [fateOf]
    cases hg : g rn.2 with
    | none => exact Or.inl rfl
    | some change =>
      cases change with
      | goes => trivial
      | becomes edits es =>
        obtain ⟨-, front, e, rfl, hlast⟩ := hfits rn hrn _ hg
        have hreads := htrees rn hrn _ _ hg
        obtain ⟨us₁, us₂, hus, -, h₂⟩ := forall₂_append hreads
        cases h₂ with
        | cons he hnil =>
          cases hnil
          exact Or.inr ⟨us₁, _, hus, hlast _ he⟩
  obtain ⟨hlead', hpieces', -⟩ := pieces_spec (readable_of_source hsource)
  -- The source is read again as the trees that are left, and a text with given trees and
  -- white space between them splits in one way.
  have hsameTrees : m'.pieces.map (·.tree) =
      ((m.left (fateOf g trees)).2.flatMap Row.pieces).map (·.tree) := by
    rw [left_flat, ← hnodes, pieces, pieces_trees]
    rfl
  obtain ⟨hspaces, hgaps⟩ := left_spaces hm (fateOf g trees)
  have hpieces : ∀ p ∈ (m.left (fateOf g trees)).2.flatMap Row.pieces, p.Clear := by
    intro p hp
    have ht : p.tree ∈ m'.pieces.map (·.tree) := by
      rw [hsameTrees]
      exact List.mem_map_of_mem hp
    obtain ⟨q, hq, hqp⟩ := List.mem_map.mp ht
    have hclear := hpieces' q hq
    rw [Piece.Clear, hqp] at hclear
    exact ⟨hclear.1, hclear.2.1, hgaps p hp⟩
  obtain ⟨hlead, hsame⟩ := pieces_unique hlead' hspaces hpieces' hpieces hsameTrees (by
    rw [← chars_eq, chars_of_source hsource]
    rfl)
  exact ⟨hlead, by rw [rows, hsame, rows_flatMap hgrouped]⟩

/-- The trees in these rows are the former ones, revised where a statement
    changed. -/
theorem rows_changes (hm : m.Readable) {m' : Module} {given : List Edit}
    (hfits : ∀ rn ∈ m.located, ∀ change, g rn.2 = some change → change.FitsAt rn.2)
    (hrising : Rising (m.editsOf g)) (hperm : given.Perm (m.editsOf g))
    (happly : m.applyEdits given = .ok m') (hlocal : m'.RereadsAs (m.expect g)) :
    ∃ trees : Node → List Tree,
      (∀ rn ∈ m.located, ∀ edits es, g rn.2 = some (.becomes edits es) →
        List.Forall₂ Expected.Reads es (trees rn.2)) ∧
      m'.rows.map Row.trees = m.located.flatMap fun rn => rn.1.revised (trees rn.2) (g rn.2) := by
  obtain ⟨trees, htrees, -, hrows⟩ := left_changes hm hfits hrising hperm happly hlocal
  exact ⟨trees, htrees, by rw [hrows, left_rows]⟩

/-! ### Batches of few changes -/

theorem exists_row_of_statement {stmt : Node} (h : stmt ∈ m.statements) :
    ∃ r, (r, stmt) ∈ m.located := by
  rw [statements_eq] at h
  obtain ⟨⟨r, n⟩, hrn, rfl⟩ := List.mem_map.mp (List.mem_filter.mp h).1
  exact ⟨r, hrn⟩

/-- No two rows have a last tree at one place. -/
theorem flatMap_start {α : Type} {l : List (Row × Node)} {r : Row} {n : Node}
    (hl : l.Pairwise fun a b => a.2.start < b.2.start) (h : (r, n) ∈ l) (f : Row × Node → List α) :
    (l.flatMap fun rn => if rn.2.start = n.start then f rn else []) = f (r, n) := by
  obtain ⟨before, after, rfl⟩ := List.append_of_mem h
  obtain ⟨-, hcons, hbefore⟩ := List.pairwise_append.mp hl
  have hafter := (List.pairwise_cons.mp hcons).1
  have hnone : ∀ l' : List (Row × Node), (∀ rn ∈ l', rn.2.start ≠ n.start) →
      (l'.flatMap fun rn => if rn.2.start = n.start then f rn else []) = [] := by
    intro l' hne
    exact List.flatMap_eq_nil_iff.mpr fun rn hrn => if_neg (hne rn hrn)
  rw [List.flatMap_append, List.flatMap_cons, hnone before, hnone after, if_pos rfl]
  · simp
  · exact fun rn hrn => Nat.ne_of_gt (hafter rn hrn)
  · exact fun rn hrn => Nat.ne_of_lt (hbefore rn hrn (r, n) (by simp))

/-- The description of a change to one statement. -/
def changeAt (stmt : Node) (change : Change) (n : Node) : Option Change :=
  if n.start = stmt.start then some change else none

theorem editsOf_changeAt (hm : m.Readable) {stmt : Node} (h : stmt ∈ m.statements)
    (change : Change) :
    m.editsOf (changeAt stmt change) = m.changeEdits stmt (some change) := by
  obtain ⟨r, hr⟩ := exists_row_of_statement h
  rw [← flatMap_start (located_rising hm) hr fun rn => m.changeEdits rn.2 (some change), editsOf]
  refine List.flatMap_congr fun rn _ => ?_
  unfold changeAt
  split <;> rfl

/-- Rows with nodes at one place are one row. -/
theorem located_eq_of_start (hm : m.Readable) {rn rn' : Row × Node} (h : rn ∈ m.located)
    (h' : rn' ∈ m.located) (hstart : rn.2.start = rn'.2.start) : rn = rn' := by
  obtain ⟨r, n⟩ := rn
  have h₁ := flatMap_start (located_rising hm) h fun rn => [rn]
  have h₂ := flatMap_start (located_rising hm) h' fun rn => [rn]
  rw [show (r, n).2.start = n.start from rfl] at hstart
  rw [hstart, h₂] at h₁
  exact (List.cons.inj h₁).1.symm

/-- The last tree of a row at the place of a statement is that statement. -/
theorem node_eq_of_start (hm : m.Readable) {rn : Row × Node} {stmt : Node}
    (h : rn ∈ m.located) (hstmt : stmt ∈ m.statements) (hstart : rn.2.start = stmt.start) :
    rn.2 = stmt := by
  obtain ⟨r, hr⟩ := exists_row_of_statement hstmt
  exact congrArg Prod.snd (located_eq_of_start hm h hr hstart)

/-- The description of a change to one statement while another one goes, unless
    they are the same. -/
def changeBoth (stmt : Node) (change : Change) (gone n : Node) : Option Change :=
  if n.start = stmt.start then some change
  else if n.start = gone.start then some .goes
  else none

theorem editsOf_changeBoth (hm : m.Readable) {stmt gone : Node} (h : stmt ∈ m.statements)
    (hgone : gone ∈ m.statements) (change : Change) :
    ((if gone.start ≠ stmt.start then [m.removeStatement gone] else []) ++
      m.changeEdits stmt (some change)).Perm (m.editsOf (changeBoth stmt change gone)) := by
  obtain ⟨r, hr⟩ := exists_row_of_statement h
  obtain ⟨q, hq⟩ := exists_row_of_statement hgone
  have hrising := located_rising hm
  rw [← flatMap_start hrising hr fun rn => m.changeEdits rn.2 (some change),
    ← flatMap_start hrising hq fun rn =>
      if rn.2.start ≠ stmt.start then [m.removeStatement rn.2] else []]
  refine (List.flatMap_append_perm _ _ _).trans ?_
  rw [editsOf]
  refine List.Perm.of_eq (List.flatMap_congr fun rn _ => ?_)
  unfold changeBoth
  by_cases hstmt : rn.2.start = stmt.start
  · simp [hstmt]
  · by_cases hgone : rn.2.start = gone.start
    · have hne : gone.start ≠ stmt.start := hgone ▸ hstmt
      simp [hgone, hne, changeEdits]
    · simp [hstmt, hgone, changeEdits]

end Module

end ComponentDecl
