import ComponentDecl.Text.Slice
import Mathlib.Data.List.TakeWhile

/-! # What a head line quotes

    A message quotes the head of a longer text: its first line, without the blanks in
    front of it, and cut if it is long.

    Key theorem:
    - `quotes_headLine`: the head line of a text quotes that text
-/

namespace ComponentDecl.Text

/-- Holds of a head that quotes the first line of a text, where `blanks` stands before
    that line and `rest` after it. -/
structure QuotesLine (limit : Nat) (text head blanks line rest : List Char) : Prop where
  text_eq : text = blanks ++ (line ++ rest)
  blanks : ∀ c ∈ blanks, isBlank c = true
  visible : ∀ c ∈ line.head?, isBlank c = false
  unbroken : ∀ c ∈ line, isLineBreak c = false
  ended : (∀ c ∈ rest, isBlank c = true) ∨ ∃ c ∈ rest.head?, isLineBreak c = true
  head_eq : head = if limit < line.length then line.take (limit - 3) ++ "...".toList else line

/-- Holds of a head that quotes the first line of a text, cut at a limit. -/
def Quotes (limit : Nat) (text head : String) : Prop :=
  ∃ blanks line rest, QuotesLine limit text.toList head.toList blanks line rest

/-- The first line reaches to the first break.  The induction is on the text, with the
    characters already read of the line in hand. -/
theorem headD_linesFrom (line cs : List Char) :
    (linesFrom line cs).headD [] = line.reverse ++ cs.takeWhile (!isLineBreak ·) := by
  fun_induction linesFrom line cs with
  | case1 line h =>
    rw [List.isEmpty_iff] at h
    simp [h]
  | case2 line h => simp
  | case3 line rest ih =>
    have hbreak : isLineBreak '\r' = true := by decide
    simp [hbreak]
  | case4 line c rest _ hbreak ih => simp [hbreak]
  | case5 line c rest _ hbreak ih =>
    rw [ih]
    simp [hbreak]

theorem dropEndWhile_append {α : Type} (p : α → Bool) (xs : List α) :
    ∃ rest, xs = dropEndWhile p xs ++ rest ∧ ∀ x ∈ rest, p x = true := by
  refine ⟨(xs.reverse.takeWhile p).reverse, ?_, fun x hx => ?_⟩
  · rw [dropEndWhile, ← List.reverse_append, List.takeWhile_append_dropWhile, List.reverse_reverse]
  · exact List.mem_takeWhile_imp (List.mem_reverse.mp hx)

/-- The head line of a text quotes its first line. -/
theorem quotes_headLine (limit : Nat) (hlimit : 3 ≤ limit) (s : String) :
    Quotes limit s (headLine limit s) := by
  obtain ⟨blank, hblank, hall⟩ := dropEndWhile_append isBlank (s.toList.dropWhile isBlank)
  have hstrip : (strip s).toList = dropEndWhile isBlank (s.toList.dropWhile isBlank) := by
    rw [strip, String.toList_ofList, trimWhile]
  rw [← hstrip] at hblank
  generalize hinner : (strip s).toList = inner at hblank
  -- The first line of the text without its edges is what comes before a line break.
  have hline : ((lines (strip s)).headD "").toList = inner.takeWhile (!isLineBreak ·) := by
    have hfirst := headD_linesFrom [] inner
    rw [List.reverse_nil, List.nil_append] at hfirst
    rw [lines, hinner, ← hfirst]
    cases linesFrom [] inner <;> simp
  have hsplit : inner = inner.takeWhile (!isLineBreak ·) ++ inner.dropWhile (!isLineBreak ·) :=
    List.takeWhile_append_dropWhile.symm
  refine ⟨s.toList.takeWhile isBlank, inner.takeWhile (!isLineBreak ·),
    inner.dropWhile (!isLineBreak ·) ++ blank, ?_, fun c => List.mem_takeWhile_imp, ?_,
    fun c hc => by simpa using List.mem_takeWhile_imp hc, ?_, ?_⟩
  · rw [← List.append_assoc (inner.takeWhile _), ← hsplit, ← hblank,
      List.takeWhile_append_dropWhile]
  · intro c hc
    have hfirst := List.head?_dropWhile_not isBlank s.toList
    rw [hblank, hsplit, List.append_assoc, List.head?_append, hc] at hfirst
    simpa using hfirst
  · cases hrest : inner.dropWhile (!isLineBreak ·) with
    | nil => exact Or.inl (by simpa using hall)
    | cons c rest =>
      have hfirst := List.head?_dropWhile_not (!isLineBreak ·) inner
      rw [hrest] at hfirst
      exact Or.inr ⟨c, rfl, by simpa using hfirst⟩
  · generalize inner.takeWhile (!isLineBreak ·) = line at hline
    -- A line that is too long is cut, with three characters left for the dots.
    have hhead : headLine limit s = if (limit : Int) < line.length then
        String.ofList (slice line 0 (limit - 3)) ++ "..." else String.ofList line := by
      rw [headLine, hline]
    rw [hhead]
    by_cases hlong : limit < line.length
    · have hstart : indexIn line.length 0 = 0 := by simp [indexIn]
      have hstop : indexIn line.length ((limit : Int) - 3) = limit - 3 := by
        rw [indexIn, if_neg (by omega)]
        omega
      rw [if_pos hlong, if_pos (Int.ofNat_lt.mpr hlong), String.toList_append,
        String.toList_ofList, slice, hstart, hstop, List.drop_zero]
    · rw [if_neg hlong, if_neg (fun h => hlong (Int.ofNat_lt.mp h)), String.toList_ofList]

end ComponentDecl.Text
