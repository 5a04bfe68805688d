import ComponentDecl.Proofs.Text.LineEdges
import Mathlib.Data.List.Pairwise

/-! # Carrying out a batch of edits

    A batch is carried out from the back of a module, in an order that the batch
    itself does not fix.  Read from the front, a batch of ordered edits weaves
    its texts into the text that it leaves alone.  Both views give the same
    result, so what a batch does to a text can be read off piece by piece.

    Key theorem:
    - `Weave.applyAll`: a batch in any order makes the text that it weaves
-/

namespace ComponentDecl

open Text

/-! ### Weaving -/

/-- A batch of edits ordered by place, the text that starts at an offset, and
    the text that the batch makes of it. -/
inductive Weave : Nat → List Edit → List Char → List Char → Prop where
  /-- Without further edits the text stays. -/
  | done (offset : Nat) (text : List Char) : Weave offset [] text text
  /-- An edit keeps what stands before it and replaces what it covers. -/
  | edit {offset : Nat} {edits : List Edit} {rest out : List Char} (kept gone : List Char)
      (text : String) (h : Weave (offset + size kept + size gone) edits rest out) :
      Weave offset
        (⟨(offset + size kept : Nat), (offset + size kept + size gone : Nat), text⟩ :: edits)
        (kept ++ gone ++ rest) (kept ++ text.toList ++ out)

/-- Text before all edits stays. -/
theorem Weave.prepend {offset : Nat} {edits : List Edit} {text out : List Char}
    (before : List Char) (h : Weave (offset + size before) edits text out) :
    Weave offset edits (before ++ text) (before ++ out) := by
  cases h with
  | done => exact .done _ _
  | edit kept gone text h =>
    have := Weave.edit (before ++ kept) gone text (by simpa [Nat.add_assoc] using h)
    simpa [Nat.add_assoc] using this

/-- Batches of neighbouring texts make one batch. -/
theorem Weave.append {offset : Nat} {edits edits' : List Edit} {text text' out out' : List Char}
    (h : Weave offset edits text out) (h' : Weave (offset + size text) edits' text' out') :
    Weave offset (edits ++ edits') (text ++ text') (out ++ out') := by
  induction h with
  | done => exact h'.prepend _
  | edit kept gone text h ih =>
    have := Weave.edit kept gone text (ih (by simpa [Nat.add_assoc] using h'))
    simpa using this

/-- Text after all edits stays. -/
theorem Weave.extend {offset : Nat} {edits : List Edit} {text out : List Char}
    (h : Weave offset edits text out) (after : List Char) :
    Weave offset edits (text ++ after) (out ++ after) := by
  simpa using h.append (.done _ after)

/-- One edit of a text in three parts. -/
theorem weave_single (offset : Nat) (kept gone rest : List Char) (text : String) :
    Weave offset [⟨(offset + size kept : Nat), (offset + size kept + size gone : Nat), text⟩]
      (kept ++ gone ++ rest) (kept ++ text.toList ++ rest) :=
  .edit kept gone text (.done _ rest)

/-- The edits of a batch lie within its text and follow one another. -/
theorem Weave.bounds {offset : Nat} {edits : List Edit} {text out : List Char}
    (h : Weave offset edits text out) :
    ∀ e ∈ edits, (offset : Int) ≤ e.start ∧ e.start ≤ e.stop ∧
      e.stop ≤ (offset + size text : Nat) := by
  induction h with
  | done => simp
  | edit kept gone text h ih =>
    intro e he
    rcases List.mem_cons.mp he with rfl | he
    · simp
      omega
    · have := ih e he
      simp only [size_append]
      omega

/-- Each edit of a batch ends at or before the start of every later one. -/
theorem Weave.apart {offset : Nat} {edits : List Edit} {text out : List Char}
    (h : Weave offset edits text out) : edits.Pairwise fun a b => a.stop ≤ b.start := by
  induction h with
  | done => exact List.Pairwise.nil
  | edit kept gone text h ih =>
    exact List.pairwise_cons.mpr ⟨fun e he => (h.bounds e he).1, ih⟩

/-! ### The woven text -/

/-- A text cut after a number of bytes. -/
def cutAt : Nat → List Char → List Char × List Char
  | _, [] => ([], [])
  | n, c :: cs =>
    if n = 0 then ([], c :: cs)
    else
      let cut := cutAt (n - c.utf8Size) cs
      (c :: cut.1, cut.2)

/-- The text that a batch of edits ordered by place makes of a text that starts
    at an offset. -/
def woven (offset : Nat) : List Edit → List Char → List Char
  | [], cs => cs
  | e :: es, cs =>
    let cut := cutAt (e.start.toNat - offset) cs
    let rest := (cutAt (e.stop.toNat - e.start.toNat) cut.2).2
    cut.1 ++ e.text.toList ++ woven e.stop.toNat es rest

theorem size_cons (c : Char) (cs : List Char) : size (c :: cs) = c.utf8Size + size cs := by
  rw [size, encodeChars_cons, List.length_append, String.length_utf8EncodeChar, size]

theorem cutAt_size (kept rest : List Char) : cutAt (size kept) (kept ++ rest) = (kept, rest) := by
  induction kept with
  | nil =>
    cases rest with
    | nil => rfl
    | cons c rest => rfl
  | cons c kept ih =>
    have hpos := c.utf8Size_pos
    have hrest : size (c :: kept) - c.utf8Size = size kept := by
      rw [size_cons]
      omega
    rw [List.cons_append, cutAt, if_neg (by rw [size_cons]; omega), hrest, ih]

/-- What a batch weaves is the woven text. -/
theorem Weave.eq_woven {offset : Nat} {edits : List Edit} {text out : List Char}
    (h : Weave offset edits text out) : out = woven offset edits text := by
  induction h with
  | done => rfl
  | @edit offset edits rest out kept gone text h ih =>
    have hkept : (((offset + size kept : Nat) : Int).toNat - offset) = size kept := by omega
    have hgone : (((offset + size kept + size gone : Nat) : Int).toNat -
        ((offset + size kept : Nat) : Int).toNat) = size gone := by omega
    rw [woven, hkept, hgone, List.append_assoc kept gone, cutAt_size]
    dsimp only
    rw [cutAt_size, Int.toNat_natCast, ih]

/-! ### The order of a batch -/

/-- The edits stand in the order of their places, and no place has two. -/
def Rising (edits : List Edit) : Prop :=
  edits.Pairwise fun a b => a.start < b.start ∨ a.start = b.start ∧ a.stop < b.stop

/-- The edits of a weaving rise if all but the first one cover something. -/
theorem Weave.rising {offset : Nat} {edits : List Edit} {text out : List Char}
    (h : Weave offset edits text out) (hne : ∀ e ∈ edits.tail, e.start < e.stop) :
    Rising edits := by
  induction h with
  | done => exact List.Pairwise.nil
  | edit kept gone text h ih =>
    refine List.pairwise_cons.mpr ⟨fun e he => ?_, ih fun e he => hne e (List.mem_of_mem_tail he)⟩
    have hbounds := h.bounds e he
    have hcovers := hne e he
    dsimp only
    omega

theorem Edit.before_iff (a b : Edit) :
    a.before b = true ↔ b.start < a.start ∨ a.start = b.start ∧ b.stop ≤ a.stop := by
  simp [Edit.before]

theorem Edit.place_perm (e : Edit) (es : List Edit) : (e.place es).Perm (e :: es) := by
  induction es with
  | nil => exact .refl _
  | cons f fs ih =>
    unfold place
    split
    · exact .refl _
    · exact (ih.cons f).trans (.swap e f fs)

/-- An ordered batch is a permutation of the given one. -/
theorem Edit.arrange_perm (edits : List Edit) : (Edit.arrange edits).Perm edits := by
  induction edits with
  | nil => exact .refl _
  | cons e es ih => exact (Edit.place_perm e _).trans (ih.cons e)

theorem Edit.pairwise_place {e : Edit} {es : List Edit}
    (h : es.Pairwise fun a b => Edit.before a b = true) :
    (e.place es).Pairwise fun a b => Edit.before a b = true := by
  induction es with
  | nil => exact List.pairwise_singleton _ _
  | cons f fs ih =>
    obtain ⟨hf, hfs⟩ := List.pairwise_cons.mp h
    unfold place
    split
    · next hbefore =>
      refine List.pairwise_cons.mpr ⟨fun g hg => ?_, h⟩
      rcases List.mem_cons.mp hg with rfl | hg
      · exact hbefore
      · have := hf g hg
        rw [Edit.before_iff] at *
        omega
    · next hbefore =>
      refine List.pairwise_cons.mpr ⟨fun g hg => ?_, ih hfs⟩
      rcases List.mem_cons.mp ((Edit.place_perm e fs).mem_iff.mp hg) with rfl | hg
      · rw [Edit.before_iff] at *
        omega
      · exact hf g hg

theorem Edit.pairwise_arrange (edits : List Edit) :
    (Edit.arrange edits).Pairwise fun a b => Edit.before a b = true := by
  induction edits with
  | nil => exact List.Pairwise.nil
  | cons e es ih => exact Edit.pairwise_place ih

/-- However a rising batch is given, it is carried out from its end. -/
theorem arrange_eq_reverse {edits given : List Edit} (hrising : Rising edits)
    (hperm : given.Perm edits) : Edit.arrange given = edits.reverse := by
  have hsorted := Edit.pairwise_arrange given
  have hreverse : edits.reverse.Pairwise fun a b => Edit.before a b = true := by
    rw [List.pairwise_reverse]
    refine hrising.imp fun hab => ?_
    rw [Edit.before_iff]
    omega
  have hsame : (Edit.arrange given).Perm edits.reverse :=
    (Edit.arrange_perm given).trans (hperm.trans (List.reverse_perm edits).symm)
  refine hsame.eq_of_pairwise (fun a b ha hb hab hba => ?_) hsorted hreverse
  -- Two edits that may stand in either order have one place, so they are one edit.
  rw [Edit.before_iff] at hab hba
  have ha : a ∈ edits := hsame.mem_iff.mp ha |> List.mem_reverse.mp
  have hb : b ∈ edits := List.mem_reverse.mp hb
  have hplaces : edits.Pairwise fun a b => a.start ≠ b.start ∨ a.stop ≠ b.stop :=
    hrising.imp fun hab => by omega
  have : Std.Symm fun a b : Edit => a.start ≠ b.start ∨ a.stop ≠ b.stop := ⟨fun a b h => by omega⟩
  by_contra hne
  have := hplaces.forall ha hb hne
  omega

/-! ### Both views agree -/

theorem Edit.splice_append (e : Edit) {kept gone rest : List Char} {offset : Nat}
    (hstart : e.start = (offset + size kept : Nat))
    (hstop : e.stop = (offset + size kept + size gone : Nat)) {before : List Char}
    (hbefore : size before = offset) :
    e.splice (encodeChars (before ++ (kept ++ gone ++ rest))) =
      encodeChars (before ++ (kept ++ e.text.toList ++ rest)) := by
  have htake : (encodeChars (before ++ (kept ++ gone ++ rest))).take e.start.toNat =
      encodeChars (before ++ kept) := by
    have : e.start.toNat = (encodeChars (before ++ kept)).length := by
      rw [hstart, Int.toNat_natCast, ← hbefore, ← size_append]
      rfl
    rw [this, show before ++ (kept ++ gone ++ rest) = (before ++ kept) ++ (gone ++ rest) by simp,
      encodeChars_append (before ++ kept), List.take_left]
  have hdrop : (encodeChars (before ++ (kept ++ gone ++ rest))).drop e.stop.toNat =
      encodeChars rest := by
    have : e.stop.toNat = (encodeChars (before ++ kept ++ gone)).length := by
      rw [hstop, Int.toNat_natCast, ← hbefore, ← size_append, ← size_append]
      rfl
    rw [this, show before ++ (kept ++ gone ++ rest) = (before ++ kept ++ gone) ++ rest by simp,
      encodeChars_append (before ++ kept ++ gone), List.drop_left]
  rw [Edit.splice, htake, hdrop]
  simp [encode]

theorem Weave.applyInOrder {offset : Nat} {edits : List Edit} {text out : List Char}
    (h : Weave offset edits text out) :
    ∀ before, size before = offset → ∀ bound, offset + size text ≤ bound →
      ∃ bound', offset ≤ bound' ∧ ∀ more,
        Edit.applyInOrder bound (edits.reverse ++ more) (encodeChars (before ++ text)) =
          Edit.applyInOrder bound' more (encodeChars (before ++ out)) := by
  induction h with
  | done offset text =>
    intro before _ bound hbound
    exact ⟨bound, by omega, fun more => rfl⟩
  | @edit offset edits rest out kept gone text h ih =>
    intro before hbefore bound hbound
    simp only [size_append] at hbound
    obtain ⟨bound', hbound', hrest⟩ := ih (before ++ (kept ++ gone))
      (by simp [hbefore, Nat.add_assoc]) bound (by omega)
    refine ⟨offset + size kept, by omega, fun more => ?_⟩
    rw [List.reverse_cons, List.append_assoc,
      show before ++ (kept ++ gone ++ rest) = before ++ (kept ++ gone) ++ rest by simp, hrest,
      List.singleton_append, Edit.applyInOrder]
    dsimp only
    rw [if_pos (by omega), Int.toNat_natCast]
    rw [show before ++ (kept ++ gone) ++ out = before ++ (kept ++ gone ++ out) by simp,
      Edit.splice_append _ rfl rfl hbefore]

/-- A batch given in any order makes the text that it weaves. -/
theorem Weave.applyAll {edits given : List Edit} {text out : List Char}
    (h : Weave 0 edits text out) (hrising : Rising edits) (hperm : given.Perm edits) :
    Edit.applyAll given (encodeChars text) = .ok (encodeChars out) := by
  obtain ⟨bound', -, hrest⟩ := h.applyInOrder [] rfl (size text) (by omega)
  have := hrest []
  rw [List.append_nil] at this
  rw [Edit.applyAll, arrange_eq_reverse hrising hperm]
  exact this

end ComponentDecl
