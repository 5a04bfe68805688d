import ComponentDecl.Proofs.Module.Batch
import Mathlib.Algebra.BigOperators.Group.List.Basic
import Mathlib.Algebra.Ring.Int.Defs

/-! # On which line a row stands after a batch

    A row that stays keeps its trees, but it may come to stand on another line.  The
    line moves by the line feeds that the edits above the row put in, less those that
    they take out.

    Key theorems:
    - `Weave.count_newline`: the line feeds of the text that a batch makes
    - `Module.row_kept`: a row that stays, and the line feeds above it
-/

namespace ComponentDecl

open Syntax Text

/-- How many line feeds an edit of a module puts in, less those that it takes out. -/
def Module.linesAdded (m : Module) (e : Edit) : Int :=
  e.text.toList.count '\n' - ((m.source.take e.stop.toNat).drop e.start.toNat).count 0x0a

/-- How many line feeds the edits before an offset add. -/
def Module.linesAddedBefore (m : Module) (edits : List Edit) (offset : Nat) : Int :=
  ((edits.filter fun e => e.stop ≤ (offset : Int)).map m.linesAdded).sum

/-- Edits that stand after an offset add nothing before it. -/
theorem Module.linesAddedBefore_of_after (m : Module) {edits : List Edit} {offset : Nat}
    (h : ∀ e ∈ edits, (offset : Int) < e.stop) : m.linesAddedBefore edits offset = 0 := by
  have hnone : edits.filter (fun e => e.stop ≤ (offset : Int)) = [] :=
    List.filter_eq_nil_iff.mpr fun e he => by simpa using h e he
  rw [linesAddedBefore, hnone]
  rfl

/-- The line feeds of the text that a batch makes.  The induction is on the batch; the
    text before the next edit grows. -/
theorem Weave.count_newline {m : Module} {offset : Nat} {edits : List Edit} {text out : List Char}
    (h : Weave offset edits text out) {before after : List Char}
    (hsource : m.source = encodeChars (before ++ (text ++ after))) (hoffset : offset = size before) :
    (out.count '\n' : Int) = text.count '\n' + (edits.map m.linesAdded).sum := by
  -- The text before the place of the weave grows by what each edit goes past.
  induction h generalizing before with
  | done => simp
  | @edit offset edits rest out kept gone text h ih =>
    have hsplit : m.source = encodeChars ((before ++ kept) ++ (gone ++ (rest ++ after))) := by
      rw [hsource]
      simp
    have hleft : m.source = encodeChars ((before ++ kept ++ gone) ++ (rest ++ after)) := by
      rw [hsplit]
      simp
    have hrest := ih hleft (by rw [hoffset]; simp [Nat.add_assoc])
    have hstart : offset + size kept = size (before ++ kept) := by
      rw [hoffset, size_append]
    have hcut : (m.source.take (offset + size kept + size gone)).drop (offset + size kept) =
        encodeChars gone := by
      rw [hsplit, hstart, encodeChars_append (before ++ kept), encodeChars_append gone, size, size,
        List.take_length_add_append, List.take_left, List.drop_left]
    have hadded : m.linesAdded
        ⟨(offset + size kept : Nat), (offset + size kept + size gone : Nat), text⟩ =
          text.toList.count '\n' - gone.count '\n' := by
      rw [Module.linesAdded, Int.toNat_natCast, Int.toNat_natCast, hcut, count_encodeChars]
    rw [List.map_cons, List.sum_cons, hadded]
    simp only [List.count_append]
    omega

/-! ### The rows before a row that stays -/

theorem fitsFrom_append {start : Nat} {fs gs : List (Row × Fate)} :
    FitsFrom start (fs ++ gs) ↔
      FitsFrom start fs ∧ FitsFrom (start + size (rowsText (fs.map (·.1)))) gs := by
  induction fs generalizing start with
  | nil => simp [FitsFrom]
  | cons rf fs ih =>
    have htext : size (rowsText ((rf :: fs).map (·.1))) =
        size rf.1.text + size (rowsText (fs.map (·.1))) := by
      rw [List.map_cons, rowsText_cons, Row.text_eq]
      simp [Nat.add_assoc]
    rw [htext, ← Nat.add_assoc, List.cons_append, FitsFrom, FitsFrom, ih, and_assoc]

/-- What a batch leaves before a row that does not go is what it would leave alone. -/
theorem settled_append (first : Bool) (gap pending : List Char) (fs : List (Row × Fate)) (r : Row)
    (edits : List Edit) (trees : List Tree) (gs : List (Row × Fate)) :
    settled first gap pending (fs ++ (r, .turns edits trees) :: gs) =
      ((settled first gap pending fs).1, (settled first gap pending fs).2 ++
        (rows (r.docs ++ lined trees (settled false r.last.gap r.last.gap gs).1) ++
          (settled false r.last.gap r.last.gap gs).2)) := by
  induction fs generalizing first gap pending with
  | nil => rfl
  | cons rf fs ih =>
    obtain ⟨q, _ | ⟨edits', trees'⟩⟩ := rf
    · rw [List.cons_append, settled, settled, ih]
    · rw [List.cons_append, settled, settled, ih, List.append_assoc]

/-- The edits before a row that does not go come before its own and those after it. -/
theorem batchEdits_append (start : Nat) (first : Bool) (gap : List Char) (fs : List (Row × Fate))
    (r : Row) (edits : List Edit) (trees : List Tree) (gs : List (Row × Fate)) :
    batchEdits start first gap (fs ++ (r, .turns edits trees) :: gs) =
      batchEdits start first gap fs ++ (edits ++
        batchEdits (start + size (rowsText (fs.map (·.1))) + size r.text) false r.last.gap gs) := by
  induction fs generalizing start first gap with
  | nil => simp [batchEdits]
  | cons rf fs ih =>
    have htext : size (rowsText ((rf :: fs).map (·.1))) =
        size rf.1.text + size (rowsText (fs.map (·.1))) := by
      rw [List.map_cons, rowsText_cons, Row.text_eq]
      simp [Nat.add_assoc]
    obtain ⟨q, f⟩ := rf
    rw [htext, ← Nat.add_assoc, List.cons_append]
    show _ ++ batchEdits (start + size q.text) false q.last.gap _ =
      (_ ++ batchEdits (start + size q.text) false q.last.gap fs) ++ _
    rw [ih, List.append_assoc]

namespace Module

variable {m m' : Module} {g : Node → Option Change}

/-- Of a batch that leaves a row alone, the edits that end before an offset in the last tree
    of the row are those of the rows above. -/
theorem edits_above (hm : m.Readable) {given : List Edit} {trees : Node → List Tree}
    (hperm : given.Perm (m.editsOf g)) {l l' : List (Row × Node)} {r : Row} {n : Node}
    (hsplit : m.located = l ++ (r, n) :: l') {fs gs : List (Row × Fate)}
    (hfates : m.fates (fateOf g trees) = fs ++ (r, .turns [] [r.last.tree]) :: gs)
    (hrows : fs.map (·.1) = l.map (·.1))
    (hfit : FitsFrom (size m.lead) (fs ++ (r, .turns [] [r.last.tree]) :: gs)) {offset : Nat}
    (hstart : n.start ≤ offset) (hstop : offset < n.stop) :
    (given.filter fun e => e.stop ≤ (offset : Int)).Perm
      (batchEdits (size m.lead) true m.lead fs) := by
  obtain ⟨-, hnode⟩ := m.located_split hsplit
  rw [fitsFrom_append, hrows] at hfit
  obtain ⟨hfit₁, -, hfit₂⟩ := hfit
  have hedits := batchEdits_fates hm g trees
  rw [hfates, batchEdits_append, List.nil_append, hrows] at hedits
  have hbefore := (weave_batch (cutBefore_suffix true m.lead) (Nat.le_refl _) hfit₁).bounds
  rw [Nat.sub_self, hrows] at hbefore
  have hafter := (weave_batch (cutBefore_suffix false r.last.gap)
    (by rw [Row.text_eq]; simp; omega) hfit₂).bounds
  have hplace := m.start_nodeAt (l.map (·.1)) r
  rw [← hnode] at hplace
  have hend : n.stop = n.start + size r.last.tree.spell := by
    rw [Node.stop_eq, hnode]
    rfl
  -- The edits of rows above stop at or before the node; those of rows below start behind it.
  refine (hperm.filter _).trans (.of_eq ?_)
  rw [← hedits, List.filter_append, List.filter_eq_self.mpr fun e he => ?_,
    List.filter_eq_nil_iff.mpr fun e he => ?_, List.append_nil]
  · have := hafter e he
    simp only [Row.text_eq, size_append] at this hplace
    simp only [decide_eq_true_eq]
    omega
  · have := hbefore e he
    simp only [size_append] at this hplace
    simp only [decide_eq_true_eq]
    omega

/-- A row that stays keeps its trees.  Above it stand as many more line feeds as the
    edits above it add. -/
theorem row_kept (hm : m.Readable) {given : List Edit}
    (hfits : ∀ rn ∈ m.located, ∀ change, g rn.2 = some change → change.FitsAt rn.2)
    (hrising : Rising (m.editsOf g)) (hperm : given.Perm (m.editsOf g))
    (happly : m.applyEdits given = .ok m') (hlocal : m'.RereadsAs (m.expect g))
    {l l' : List (Row × Node)} {r : Row} {n : Node} (hsplit : m.located = l ++ (r, n) :: l')
    (hstays : g n = none) :
    ∃ (trees : Node → List Tree) (A : List Row) (gap : List Char) (B : List Row),
      (∀ rn ∈ m.located, ∀ edits es, g rn.2 = some (.becomes edits es) →
        List.Forall₂ Expected.Reads es (trees rn.2)) ∧
      m'.rows = A ++ ⟨r.docs, ⟨r.last.tree, gap⟩⟩ :: B ∧
      A.map Row.trees = l.flatMap (fun rn => rn.1.revised (trees rn.2) (g rn.2)) ∧
      ∀ offset, n.start ≤ offset → offset < n.stop →
        ((m'.lead ++ (rowsText A ++ piecesText r.docs)).count '\n' : Int) =
          (m.lead ++ (rowsText (l.map (·.1)) ++ piecesText r.docs)).count '\n' +
            m.linesAddedBefore given offset := by
  obtain ⟨trees, htrees, hlead, hrows⟩ := m.left_changes hm hfits hrising hperm happly hlocal
  -- The fates of the rows before the row and of those after it.
  obtain ⟨fate, hfate⟩ : ∃ fate : Row × Node → Row × Fate,
      fate = fun rn => (rn.1, (fateOf g trees rn.2).getD rn.1.stays) := ⟨_, rfl⟩
  have hrow : (fateOf g trees n).getD r.stays = r.stays := by
    rw [fateOf, hstays]
    rfl
  have hfates : m.fates (fateOf g trees) =
      l.map fate ++ (r, .turns [] [r.last.tree]) :: l'.map fate := by
    rw [fates, ← hfate, hsplit, List.map_append, List.map_cons]
    congr 2
    rw [hfate]
    exact congrArg (Prod.mk r) hrow
  have hfirst : (l.map fate).map (·.1) = l.map (·.1) := by
    rw [hfate, List.map_map]
    rfl
  have hfit := fitsFrom_fates (m := m) (makes_of_reads hfits htrees)
  rw [hfates] at hfit
  rw [left, hfates, settled_append] at hlead hrows
  have hlocated : (r, n) ∈ m.located := by
    rw [hsplit]
    simp
  have hdocs : ∀ p ∈ r.docs, p.documents = true := documents_of_located hlocated
  rw [show ∀ gap, lined [r.last.tree] gap = [⟨r.last.tree, gap⟩] from fun _ => rfl,
    rows_docs_singleton hdocs] at hrows
  refine ⟨trees, _, _, _, htrees, hrows, ?_, fun offset hstart hstop => ?_⟩
  · rw [trees_settled, List.flatMap_map, hfate]
    exact List.flatMap_congr fun rn hrn =>
      trees_fateOf (by rw [hsplit]; exact List.mem_append_left _ hrn) g trees
  · have habove := edits_above hm hperm hsplit hfates hfirst hfit hstart hstop
    have hbefore := weave_batch (cutBefore_suffix true m.lead) (Nat.le_refl _)
      (fitsFrom_append.mp hfit).1
    rw [Nat.sub_self, hfirst] at hbefore
    have hsource : m.source = encodeChars ([] ++ (m.lead ++ rowsText (l.map (·.1)) ++
        (piecesText r.docs ++ (r.last.tree.spell ++
          (r.last.gap ++ rowsText (l'.map (·.1))))))) := by
      have hchars : m.source = encodeChars m.chars := hm
      rw [hchars, chars_rows, (m.located_split hsplit).1, rowsText_append, rowsText_cons]
      simp
    have hcount := hbefore.count_newline hsource rfl
    rw [linesAddedBefore, (habove.map m.linesAdded).sum_eq, hlead]
    simp only [List.count_append] at hcount ⊢
    omega

end Module

end ComponentDecl
