import ComponentDecl.Proofs.Module.Cuts

/-! # What a batch does to the rows of a module

    A batch of edits decides the fate of each row: the row goes with its cuts,
    or its statement turns into other trees, one on a line, most often just into
    itself.  The batch then makes the text of the rows that are left, with
    thinner gaps, and no doc comment comes to belong to another tree.

    Key theorems:
    - `weave_batch`: the text that a batch makes
    - `rising_batch`: the edits of a batch are ordered
    - `grouped_settled`: the rows that are left are still rows
-/

namespace ComponentDecl

open Syntax Text

/-- The characters of neighbouring rows. -/
def rowsText (rs : List Row) : List Char := piecesText (rs.flatMap Row.pieces)

@[simp] theorem rowsText_nil : rowsText [] = [] := rfl

@[simp] theorem rowsText_append (rs qs : List Row) :
    rowsText (rs ++ qs) = rowsText rs ++ rowsText qs := by
  simp [rowsText]

theorem rowsText_cons (r : Row) (rs : List Row) :
    rowsText (r :: rs) =
      piecesText r.docs ++ (r.last.tree.spell ++ (r.last.gap ++ rowsText rs)) := by
  simp [rowsText, Row.pieces]

theorem Row.text_eq (r : Row) :
    r.text = piecesText r.docs ++ (r.last.tree.spell ++ r.last.gap) := by
  simp [Row.text, Row.pieces]

theorem Row.size_text (r : Row) :
    size r.text = size (piecesText r.docs ++ r.last.tree.spell) + size r.last.gap := by
  rw [Row.text_eq]
  simp [Nat.add_assoc]

theorem rowsText_rows (ps : List Piece) : rowsText (rows ps) = piecesText ps := by
  rw [rowsText, rows_pieces]

/-! ### Trees on lines of their own -/

/-- Trees on lines of their own, with a gap after the last one. -/
def lined : List Tree → List Char → List Piece
  | [], _ => []
  | [t], gap => [⟨t, gap⟩]
  | t :: u :: ts, gap => ⟨t, ['\n']⟩ :: lined (u :: ts) gap

/-- The characters of trees on lines of their own. -/
def linedText (ts : List Tree) : List Char := piecesText (lined ts [])

theorem piecesText_lined {ts : List Tree} (h : ts ≠ []) (gap : List Char) :
    piecesText (lined ts gap) = linedText ts ++ gap := by
  unfold linedText
  fun_induction lined ts gap with
  | case1 => exact absurd rfl h
  | case2 => simp [lined]
  | case3 gap t u ts ih => simp [lined, ih]

theorem lined_trees (ts : List Tree) (gap : List Char) : (lined ts gap).map (·.tree) = ts := by
  fun_induction lined ts gap with
  | case1 => rfl
  | case2 => rfl
  | case3 gap t u ts ih => rw [List.map_cons, ih]

theorem linedText_eq (ts : List Tree) :
    linedText ts = ['\n'].intercalate (ts.map Tree.spell) := by
  induction ts with
  | nil => rfl
  | cons t ts ih =>
    cases ts with
    | nil => simp [linedText, lined]
    | cons u ts =>
      rw [linedText] at ih
      simp [linedText, lined, ih, List.intercalate]

theorem lined_concat (ts : List Tree) (t : Tree) :
    ∃ front, ∀ gap, lined (ts ++ [t]) gap = front ++ [⟨t, gap⟩] := by
  induction ts with
  | nil => exact ⟨[], fun _ => rfl⟩
  | cons u ts ih =>
    obtain ⟨front, hfront⟩ := ih
    refine ⟨⟨u, ['\n']⟩ :: front, fun gap => ?_⟩
    rw [List.cons_append, List.cons_append, ← hfront gap]
    cases ts <;> rfl

theorem spaces_lined {ts : List Tree} {gap : List Char} (hgap : Spaces gap) :
    ∀ p ∈ lined ts gap, Spaces p.gap := by
  fun_induction lined ts gap with
  | case1 => nofun
  | case2 t gap => simpa using hgap
  | case3 gap t u ts ih =>
    refine List.forall_mem_cons.mpr ⟨fun c hc => ?_, ih hgap⟩
    rw [List.mem_singleton.mp hc]
    decide

/-! ### Fates -/

/-- What becomes of a row. -/
inductive Fate where
  /-- The row goes away with its cuts. -/
  | goes
  /-- Edits turn the last tree of the row into other trees, one on a line. -/
  | turns (edits : List Edit) (trees : List Tree)

/-- The row stays as it is. -/
def Row.stays (r : Row) : Fate := .turns [] [r.last.tree]

/-- The edits of a batch, given where the first row starts, whether the gap
    before it starts the module, and the gap. -/
def batchEdits (start : Nat) (first : Bool) (gap : List Char) : List (Row × Fate) → List Edit
  | [] => []
  | (r, f) :: rs =>
    let edits := match f with
      | .goes =>
        [⟨(start - size (cutBefore first gap) : Nat),
          (start + size (piecesText r.docs ++ r.last.tree.spell) + size (lineRest r.last.gap) : Nat),
          ""⟩]
      | .turns edits _ => edits
    edits ++ batchEdits (start + size r.text) false r.last.gap rs

/-- The gap and the rows that a batch leaves, where `pending` is what an earlier
    row has left of the gap before the first row. -/
def settled (first : Bool) (gap pending : List Char) :
    List (Row × Fate) → List Char × List Row
  | [] => (pending, [])
  | (r, .goes) :: rs =>
    let left := settled false r.last.gap (afterLine r.last.gap) rs
    (uncut first gap pending ++ left.1, left.2)
  | (r, .turns _ trees) :: rs =>
    let left := settled false r.last.gap r.last.gap rs
    (pending, ComponentDecl.rows (r.docs ++ lined trees left.1) ++ left.2)

/-- The edits of a fate make the text of its trees. -/
def Fate.Fits (start : Nat) (r : Row) : Fate → Prop
  | .goes => True
  | .turns edits trees => trees ≠ [] ∧
    Weave start edits (piecesText r.docs ++ r.last.tree.spell)
      (piecesText r.docs ++ linedText trees)

/-- All fates fit, given where the first row starts. -/
def FitsFrom (start : Nat) : List (Row × Fate) → Prop
  | [] => True
  | (r, f) :: rs => f.Fits start r ∧ FitsFrom (start + size r.text) rs

theorem Row.fits_stays (start : Nat) (r : Row) : r.stays.Fits start r := by
  refine ⟨nofun, ?_⟩
  have : linedText [r.last.tree] = r.last.tree.spell := by simp [linedText, lined]
  rw [this]
  exact .done _ _

/-! ### The text that is left -/

/-- A row that goes takes its cuts along: it leaves the rest of the gap before it, and
    what follows the rest of its line. -/
theorem weave_goes {first : Bool} {gap pending rest out : List Char} {start : Nat} {r : Row}
    {edits : List Edit} (hcut : cutBefore first gap <:+ pending) (hpending : size pending ≤ start)
    (hwoven : Weave (start + size r.text - size (afterLine r.last.gap)) edits
      (afterLine r.last.gap ++ rest) out) :
    Weave (start - size pending)
      (⟨(start - size (cutBefore first gap) : Nat),
        (start + size (piecesText r.docs ++ r.last.tree.spell) + size (lineRest r.last.gap) : Nat),
        ""⟩ :: edits)
      (pending ++ (r.text ++ rest)) (uncut first gap pending ++ out) := by
  have hkeep := uncut_append hcut
  generalize uncut first gap pending = keep at hkeep ⊢
  subst hkeep
  have hgap := lineRest_append_afterLine r.last.gap
  have hsize := congrArg size hgap
  have htext := r.size_text
  -- The text that goes, and where it starts and stops.
  generalize hgone : cutBefore first gap ++ (piecesText r.docs ++ r.last.tree.spell) ++
    lineRest r.last.gap = gone
  have hwidth : size gone = size (cutBefore first gap) +
      size (piecesText r.docs ++ r.last.tree.spell) + size (lineRest r.last.gap) := by
    rw [← hgone, size_append, size_append (cutBefore first gap)]
  rw [size_append] at hpending hsize
  have hstart : start - size (keep ++ cutBefore first gap) + size keep =
      start - size (cutBefore first gap) := by
    rw [size_append]
    omega
  have hstop : start - size (cutBefore first gap) + size gone =
      start + size (piecesText r.docs ++ r.last.tree.spell) + size (lineRest r.last.gap) := by
    omega
  have hnext : start - size (keep ++ cutBefore first gap) + size keep + size gone =
      start + size r.text - size (afterLine r.last.gap) := by
    omega
  rw [← hnext] at hwoven
  have hedit := Weave.edit keep gone "" hwoven
  rw [hstart, hstop] at hedit
  have hall : keep ++ cutBefore first gap ++ (r.text ++ rest) =
      keep ++ gone ++ (afterLine r.last.gap ++ rest) := by
    rw [← hgone, Row.text_eq]
    conv_lhs => rw [← hgap]
    simp
  rw [hall]
  simpa using hedit

/-- A row that stays or turns leaves the gap before it. -/
theorem weave_turns {pending rest made out : List Char} {start : Nat} {r : Row}
    {edits more : List Edit} (hpending : size pending ≤ start)
    (hrow : Weave start edits (piecesText r.docs ++ r.last.tree.spell) made)
    (hwoven : Weave (start + size r.text - size r.last.gap) more (r.last.gap ++ rest) out) :
    Weave (start - size pending) (edits ++ more) (pending ++ (r.text ++ rest))
      (pending ++ (made ++ out)) := by
  have hstart : start + size r.text - size r.last.gap =
      start + size (piecesText r.docs ++ r.last.tree.spell) := by
    rw [Row.size_text]
    omega
  rw [hstart] at hwoven
  have hboth := Weave.append hrow hwoven
  rw [show start = start - size pending + size pending by omega] at hboth
  rw [Row.text_eq]
  simpa using hboth.prepend pending

/-- A batch whose fates fit makes the text of the rows that it leaves. -/
theorem weave_batch {first : Bool} {gap pending : List Char} {start : Nat}
    {fates : List (Row × Fate)} (hcut : cutBefore first gap <:+ pending)
    (hpending : size pending ≤ start) (hfits : FitsFrom start fates) :
    Weave (start - size pending) (batchEdits start first gap fates)
      (pending ++ rowsText (fates.map (·.1)))
      ((settled first gap pending fates).1 ++ rowsText (settled first gap pending fates).2) := by
  -- The induction is on the rows; `pending` is what a removal may still take back.
  induction fates generalizing first gap pending start with
  | nil => exact .done _ _
  | cons rf rs ih =>
    obtain ⟨r, f⟩ := rf
    obtain ⟨hf, hrest⟩ := hfits
    have htext := r.size_text
    have hgap := congrArg size (lineRest_append_afterLine r.last.gap)
    rw [size_append] at hgap
    have hrows : rowsText (((r, f) :: rs).map (·.1)) = r.text ++ rowsText (rs.map (·.1)) := by
      rw [List.map_cons, rowsText_cons, Row.text_eq]
      simp
    rw [hrows]
    cases f with
    | goes =>
      have hwoven := @ih _ _ _ (start + size r.text) (cutBefore_suffix_afterLine r.last.gap)
        (by omega) hrest
      simpa [batchEdits, settled] using weave_goes hcut hpending hwoven
    | turns edits trees =>
      obtain ⟨hne, hf⟩ := hf
      have hwoven := @ih _ _ _ (start + size r.text) (cutBefore_suffix false r.last.gap)
        (by omega) hrest
      simpa [batchEdits, settled, rowsText_rows, piecesText_lined hne] using
        weave_turns hpending hf hwoven

/-! ### The order of the edits -/

/-- The edits of a fate are ordered, and none of them waits for the end of its
    row. -/
def Fate.Rises (start : Nat) (r : Row) : Fate → Prop
  | .goes => r.last.tree.spell ≠ []
  | .turns edits _ => Rising edits ∧
      ∀ e ∈ edits, e.start < (start + size (piecesText r.docs ++ r.last.tree.spell) : Nat)

/-- All fates have ordered edits, given where the first row starts. -/
def RisesFrom (start : Nat) : List (Row × Fate) → Prop
  | [] => True
  | (r, f) :: rs => f.Rises start r ∧ RisesFrom (start + size r.text) rs

theorem Row.rises_stays (start : Nat) (r : Row) : r.stays.Rises start r :=
  ⟨List.Pairwise.nil, nofun⟩

theorem size_pos {cs : List Char} (h : cs ≠ []) : 0 < size cs := by
  obtain ⟨c, cs, rfl⟩ := List.exists_cons_of_ne_nil h
  have := (utf8EncodeChar_cases c).elim (fun h => by simp [h.2]) fun h => h.2.1
  have := List.length_pos_iff.mpr this
  rw [size, encodeChars_cons, List.length_append]
  omega

/-- The edits of a batch stand in the order of the rows. -/
theorem rising_batch {first : Bool} {gap : List Char} {start : Nat} {fates : List (Row × Fate)}
    (hfits : FitsFrom start fates) (hrises : RisesFrom start fates) :
    Rising (batchEdits start first gap fates) := by
  induction fates generalizing first gap start with
  | nil => exact List.Pairwise.nil
  | cons rf rs ih =>
    obtain ⟨r, f⟩ := rf
    obtain ⟨hf, hrest⟩ := hfits
    obtain ⟨hrise, hrises⟩ := hrises
    have hrising : Rising (batchEdits (start + size r.text) false r.last.gap rs) := ih hrest hrises
    have htext := r.size_text
    have hgap := congrArg size (lineRest_append_afterLine r.last.gap)
    rw [size_append] at hgap
    -- What follows is woven behind this row, which bounds its edits from below.
    cases f with
    | goes =>
      have hbounds := (@weave_batch _ _ _ (start + size r.text) _
        (cutBefore_suffix_afterLine r.last.gap) (by omega) hrest).bounds
      refine List.pairwise_cons.mpr ⟨fun e he => Or.inl ?_, hrising⟩
      have hlast := size_pos hrise
      have := (hbounds e he).1
      simp only [size_append] at htext
      dsimp only
      omega
    | turns edits trees =>
      have hbounds := (@weave_batch _ _ _ (start + size r.text) _
        (cutBefore_suffix false r.last.gap) (by omega) hrest).bounds
      refine List.pairwise_append.mpr ⟨hrise.1, hrising, fun e he e' he' => Or.inl ?_⟩
      have := hrise.2 e he
      have := (hbounds e' he').1
      omega

/-! ### The rows that are left -/

/-- The trees of a row. -/
def Row.trees (r : Row) : List Tree × Tree := (r.docs.map (·.tree), r.last.tree)

/-- The trees of the rows that a fate leaves of a row. -/
def Fate.trees (r : Row) : Fate → List (List Tree × Tree)
  | .goes => []
  | .turns _ trees => (ComponentDecl.rows (r.docs ++ lined trees [])).map Row.trees

/-- Grouping does not look at the last piece. -/
theorem rows_concat (ps : List Piece) :
    ∃ front docs, ∀ last, rows (ps ++ [last]) = front ++ [⟨docs, last⟩] := by
  induction ps with
  | nil => exact ⟨[], [], fun _ => rfl⟩
  | cons p ps ih =>
    obtain ⟨front, docs, h⟩ := ih
    cases front with
    | nil =>
      cases hp : p.documents with
      | true => exact ⟨[], p :: docs, fun last => by simp [rows, h last, hp]⟩
      | false => exact ⟨[⟨[], p⟩], docs, fun last => by simp [rows, h last, hp]⟩
    | cons q front =>
      cases hp : p.documents with
      | true =>
        exact ⟨⟨p :: q.docs, q.last⟩ :: front, docs, fun last => by simp [rows, h last, hp]⟩
      | false => exact ⟨⟨[], p⟩ :: q :: front, docs, fun last => by simp [rows, h last, hp]⟩

theorem trees_lined (docs : List Piece) (trees : List Tree) (gap : List Char) :
    (rows (docs ++ lined trees gap)).map Row.trees =
      (rows (docs ++ lined trees [])).map Row.trees := by
  rcases List.eq_nil_or_concat trees with rfl | ⟨ts, t, rfl⟩
  · rfl
  · rw [List.concat_eq_append]
    obtain ⟨front, hfront⟩ := lined_concat ts t
    obtain ⟨rs, ds, hrows⟩ := rows_concat (docs ++ front)
    rw [hfront, hfront, ← List.append_assoc, ← List.append_assoc, hrows, hrows]
    simp [Row.trees]

theorem trees_settled (first : Bool) (gap pending : List Char) (fates : List (Row × Fate)) :
    (settled first gap pending fates).2.map Row.trees =
      fates.flatMap fun rf => rf.2.trees rf.1 := by
  induction fates generalizing first gap pending with
  | nil => rfl
  | cons rf rs ih =>
    obtain ⟨r, _ | ⟨edits, trees⟩⟩ := rf
    · simp [settled, ih, Fate.trees]
    · simp only [settled, List.map_append, ih, List.flatMap_cons, Fate.trees]
      rw [trees_lined]

/-- The trees that a fate leaves of a row, from left to right. -/
def Fate.flat (r : Row) : Fate → List Tree
  | .goes => []
  | .turns _ trees => r.docs.map (·.tree) ++ trees

theorem flat_settled (first : Bool) (gap pending : List Char) (fates : List (Row × Fate)) :
    ((settled first gap pending fates).2.flatMap Row.pieces).map (·.tree) =
      fates.flatMap fun rf => rf.2.flat rf.1 := by
  induction fates generalizing first gap pending with
  | nil => rfl
  | cons rf rs ih =>
    obtain ⟨r, _ | ⟨edits, trees⟩⟩ := rf
    · simp [settled, ih, Fate.flat]
    · simp [settled, ih, Fate.flat, rows_pieces, lined_trees]

/-- What is left between the trees is white space. -/
theorem spaces_settled {first : Bool} {gap pending : List Char} {fates : List (Row × Fate)}
    (hpending : Spaces pending) (hrows : ∀ rf ∈ fates, ∀ p ∈ rf.1.pieces, Spaces p.gap) :
    Spaces (settled first gap pending fates).1 ∧
      ∀ p ∈ (settled first gap pending fates).2.flatMap Row.pieces, Spaces p.gap := by
  induction fates generalizing first gap pending with
  | nil => exact ⟨hpending, nofun⟩
  | cons rf rs ih =>
    have hrows := List.forall_mem_cons.mp hrows
    have hgap : Spaces rf.1.last.gap := hrows.1 _ (by simp [Row.pieces])
    obtain ⟨r, _ | ⟨edits, trees⟩⟩ := rf
    · obtain ⟨hleft, hpieces⟩ := @ih false r.last.gap _
        (hgap.of_suffix (List.drop_suffix _ _)) hrows.2
      exact ⟨spaces_append.mpr ⟨fun c hc => hpending c (List.mem_of_mem_take hc), hleft⟩, hpieces⟩
    · obtain ⟨hleft, hpieces⟩ := @ih false r.last.gap _ hgap hrows.2
      refine ⟨hpending, fun p hp => ?_⟩
      simp only [settled, List.flatMap_append, rows_pieces, List.mem_append] at hp
      rcases hp with (hp | hp) | hp
      · exact hrows.1 p (by simp [Row.pieces, hp])
      · exact spaces_lined hleft p hp
      · exact hpieces p hp

/-- The last tree of a fate is no doc comment, unless the row stays. -/
def Fate.Groups (r : Row) : Fate → Prop
  | .goes => True
  | .turns _ trees => trees = [r.last.tree] ∨
      ∃ front t, trees = front ++ [t] ∧ t.isDocComment = false

/-- A gap that links nothing links nothing when its cut is replaced. -/
theorem links_of_cut {keep gap more : List Char} {first : Bool}
    (hgap : keep ++ cutBefore first gap = gap) (h : links (keep ++ more) = true) :
    links gap = true := by
  unfold links at *
  rw [Bool.and_eq_true, decide_eq_true_eq, List.all_append, Bool.and_eq_true,
    List.count_append] at h
  rw [← hgap, Bool.and_eq_true, decide_eq_true_eq, List.all_append, Bool.and_eq_true,
    List.count_append, List.count_eq_zero.mpr (newline_notMem_cutBefore first _)]
  exact ⟨⟨h.1.1, cutBefore_blank first _⟩, by omega⟩

/-- The gap after a row that is left links something only if it did before. -/
theorem links_settled (gap : List Char) (fates : List (Row × Fate))
    (h : links (settled false gap gap fates).1 = true) : links gap = true := by
  cases fates with
  | nil => exact h
  | cons rf rs =>
    obtain ⟨r, _ | ⟨edits, trees⟩⟩ := rf
    · exact links_of_cut (uncut_append (cutBefore_suffix false gap)) h
    · exact h

theorem Grouped.append {rs qs : List Row} (hrs : Grouped rs) (hqs : Grouped qs)
    (hlast : qs = [] ∨ ∀ r ∈ rs.getLast?, r.last.documents = false) : Grouped (rs ++ qs) := by
  refine ⟨fun r hr => ?_, hrs.2.append hqs.2 fun r hr q hq => ?_⟩
  · exact (List.mem_append.mp hr).elim (hrs.1 r) (hqs.1 r)
  · rcases hlast with rfl | hlast
    · simp at hq
    · exact hlast r hr

/-- What is left of rows are rows again. -/
theorem grouped_settled {first : Bool} {gap pending : List Char} {fates : List (Row × Fate)}
    (hrows : Grouped (fates.map (·.1))) (hfates : ∀ rf ∈ fates, rf.2.Groups rf.1) :
    Grouped (settled first gap pending fates).2 := by
  induction fates generalizing first gap pending with
  | nil => exact ⟨nofun, List.isChain_nil⟩
  | cons rf rs ih =>
    rw [List.map_cons, grouped_cons] at hrows
    obtain ⟨hdocs, hlast, hrows⟩ := hrows
    rw [List.forall_mem_cons] at hfates
    obtain ⟨r, _ | ⟨edits, trees⟩⟩ := rf
    · exact ih hrows hfates.2
    dsimp only at hdocs hlast
    -- What is left must not end with a doc comment, which would join the row after it.
    refine (grouped_rows _).append (ih hrows hfates.2) ?_
    rcases hlast with hnil | hlast
    · rw [List.map_eq_nil_iff] at hnil
      exact Or.inl (by rw [hnil]; rfl)
    refine Or.inr fun q hq => ?_
    have hgroups : Fate.Groups r (.turns edits trees) := hfates.1
    rcases hgroups with rfl | ⟨front, t, rfl, ht⟩
    · obtain ⟨rs', ds, hrow⟩ := rows_concat r.docs
      rw [lined, hrow] at hq
      obtain rfl : _ = q := by simpa using hq
      rw [Piece.documents, Bool.and_eq_false_iff] at hlast ⊢
      refine hlast.imp id fun hlinks => ?_
      rw [← Bool.not_eq_true]
      exact fun h => by simp [links_settled _ _ h] at hlinks
    · obtain ⟨ps, hps⟩ := lined_concat front t
      obtain ⟨rs', ds, hrow⟩ := rows_concat (r.docs ++ ps)
      rw [hps, ← List.append_assoc, hrow] at hq
      obtain rfl : _ = q := by simpa using hq
      rw [Piece.documents, ht, Bool.false_and]

/-! ### Rows that stay -/

/-- Doc comments go with the first row of what follows them. -/
theorem rows_docs {docs ps : List Piece} (hdocs : ∀ p ∈ docs, p.documents = true) {r : Row}
    {rs : List Row} (h : rows ps = r :: rs) :
    rows (docs ++ ps) = ⟨docs ++ r.docs, r.last⟩ :: rs := by
  induction docs with
  | nil => exact h
  | cons p docs ih =>
    rw [List.forall_mem_cons] at hdocs
    rw [List.cons_append, rows, ih hdocs.2]
    dsimp only
    rw [if_pos hdocs.1]
    rfl

theorem rows_docs_singleton {docs : List Piece} (hdocs : ∀ p ∈ docs, p.documents = true)
    (p : Piece) : rows (docs ++ [p]) = [⟨docs, p⟩] := by
  have hsingle : rows [p] = [⟨[], p⟩] := rfl
  rw [rows_docs hdocs hsingle, List.append_nil]

/-- What belongs to nothing is a row without doc comments. -/
theorem rows_cons_of_not_documents {p : Piece} (hp : p.documents = false) (ps : List Piece) :
    rows (p :: ps) = ⟨[], p⟩ :: rows ps := by
  rw [rows]
  split
  · next hnil => rw [hnil]
  · next hcons => rw [hcons, hp, if_neg Bool.false_ne_true]

/-- Rows that stay are left as they are. -/
theorem settled_stays {rs : List Row} (h : ∀ r ∈ rs, ∀ p ∈ r.docs, p.documents = true)
    (first : Bool) (gap : List Char) :
    settled first gap gap (rs.map fun r => (r, r.stays)) = (gap, rs) := by
  induction rs generalizing first gap with
  | nil => rfl
  | cons r rs ih =>
    rw [List.forall_mem_cons] at h
    rw [List.map_cons, Row.stays, settled, ih h.2]
    dsimp only
    rw [show lined [r.last.tree] r.last.gap = [r.last] from rfl, rows_docs_singleton h.1]
    rfl

/-- Where one row turns into others, these stand between the rows before it and those
    after it, with the gap that was after it. -/
theorem settled_turn {before after : List Row} {r : Row} (edits : List Edit) (ts : List Tree)
    (hbefore : ∀ q ∈ before, ∀ p ∈ q.docs, p.documents = true)
    (hafter : ∀ q ∈ after, ∀ p ∈ q.docs, p.documents = true) (first : Bool) (gap : List Char) :
    settled first gap gap (before.map (fun q => (q, q.stays)) ++ (r, .turns edits ts) ::
        after.map fun q => (q, q.stays)) =
      (gap, before ++ ComponentDecl.rows (r.docs ++ lined ts r.last.gap) ++ after) := by
  induction before generalizing first gap with
  | nil => simp only [List.map_nil, List.nil_append, settled, settled_stays hafter]
  | cons q before ih =>
    rw [List.forall_mem_cons] at hbefore
    rw [List.map_cons, List.cons_append, Row.stays, settled, ih hbefore.2]
    dsimp only
    rw [show lined [q.last.tree] q.last.gap = [q.last] from rfl, rows_docs_singleton hbefore.1]
    rfl

end ComponentDecl
