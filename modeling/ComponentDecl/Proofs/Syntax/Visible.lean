import ComponentDecl.Syntax.Lexeme

/-! # Visible ends

    A text starts visibly if its first character is no white space, and ends
    visibly if nothing but white space of one line follows its last visible
    character.  The second notion is weaker than the first, for a line comment
    keeps the blanks at its end.

    Every class of lexemes that a statement may end in has visible ends.
-/

namespace ComponentDecl.Syntax

open Lexeme

/-- The text starts with a character that is no white space. -/
def StartsVisibly (s : List Char) : Prop :=
  ∃ c rest, s = c :: rest ∧ isSpace c = false

/-- The text has a last line, and that line has a visible character. -/
def EndsVisibly (s : List Char) : Prop :=
  ∃ before c after, s = before ++ c :: after ∧ isSpace c = false ∧ '\n' ∉ after

/-! ### Texts put together -/

theorem StartsVisibly.ne_nil {s : List Char} (h : StartsVisibly s) : s ≠ [] := by
  obtain ⟨c, rest, rfl, -⟩ := h
  simp

theorem StartsVisibly.append {s : List Char} (h : StartsVisibly s) (t : List Char) :
    StartsVisibly (s ++ t) := by
  obtain ⟨c, rest, rfl, hc⟩ := h
  exact ⟨c, rest ++ t, rfl, hc⟩

/-- A non-empty text starts visibly if it can be continued to one that does. -/
theorem StartsVisibly.of_append {s t : List Char} (h : StartsVisibly (s ++ t)) (hs : s ≠ []) :
    StartsVisibly s := by
  obtain ⟨c, rest, hst, hc⟩ := h
  cases s with
  | nil => exact absurd rfl hs
  | cons d s =>
    obtain ⟨rfl, -⟩ : d = c ∧ s ++ t = rest := by simpa using hst
    exact ⟨d, s, rfl, hc⟩

/-- So does a non-empty text whose continuation is known to start visibly. -/
theorem startsVisibly_of_append_eq {s t u : List Char} (h : s ++ t = u)
    (hu : u = [] ∨ StartsVisibly u) (hs : s ≠ []) : StartsVisibly s := by
  subst h
  rcases hu with hempty | hstarts
  · exact absurd (List.append_eq_nil_iff.mp hempty).1 hs
  · exact hstarts.of_append hs

theorem EndsVisibly.ne_nil {s : List Char} (h : EndsVisibly s) : s ≠ [] := by
  obtain ⟨before, c, after, rfl, -⟩ := h
  simp

theorem EndsVisibly.prepend {t : List Char} (h : EndsVisibly t) (s : List Char) :
    EndsVisibly (s ++ t) := by
  obtain ⟨before, c, after, rfl, hc, hafter⟩ := h
  exact ⟨s ++ before, c, after, by simp, hc, hafter⟩

/-- The last part of a text that ends visibly does so itself if it starts
    visibly: the last visible character cannot stand before it. -/
theorem EndsVisibly.of_append {s t : List Char} (h : EndsVisibly (s ++ t))
    (ht : StartsVisibly t) : EndsVisibly t := by
  obtain ⟨before, c, after, heq, hc, hafter⟩ := h
  rcases List.append_eq_append_iff.mp heq with ⟨more, rfl, hmore⟩ | ⟨more, rfl, hmore⟩
  · exact ⟨more, c, after, hmore, hc, hafter⟩
  · obtain ⟨d, rest, rfl, hd⟩ := ht
    cases more with
    | nil =>
      obtain ⟨rfl, rfl⟩ : c = d ∧ after = rest := by simpa using hmore
      exact ⟨[], c, after, rfl, hc, hafter⟩
    | cons e more =>
      obtain ⟨-, rfl⟩ : c = e ∧ after = more ++ d :: rest := by simpa using hmore
      exact ⟨[], d, rest, rfl, hd, fun h => hafter (by simp [h])⟩

theorem endsVisibly_concat (s : List Char) {c : Char} (hc : isSpace c = false) :
    EndsVisibly (s ++ [c]) :=
  ⟨s, c, [], rfl, hc, by simp⟩

/-- A text all of whose characters are visible ends visibly. -/
theorem endsVisibly_of_forall {s : List Char} (hs : s ≠ []) (h : ∀ c ∈ s, isSpace c = false) :
    EndsVisibly s := by
  rw [← List.dropLast_concat_getLast hs]
  exact endsVisibly_concat _ (h _ (List.getLast_mem hs))

/-- Holds of a text whose last character is visible.  This is how the marks and
    words of the grammar are checked. -/
def lastVisible (s : List Char) : Bool :=
  match s.getLast? with
  | some c => !isSpace c
  | none => false

theorem endsVisibly_of_lastVisible {s : List Char} (h : lastVisible s = true) :
    EndsVisibly s := by
  unfold lastVisible at h
  cases hs : s.getLast? with
  | none => simp [hs] at h
  | some c =>
    obtain ⟨before, rfl⟩ := List.getLast?_eq_some_iff.mp hs
    simp only [hs, Bool.not_eq_true'] at h
    exact endsVisibly_concat _ h

/-! ### Character classes -/

theorem not_isSpace_of_isNameChar {c : Char} (h : isNameChar c = true) : isSpace c = false := by
  unfold isNameChar at h
  cases hs : isSpace c with
  | false => rfl
  | true =>
    simp only [hs, Bool.not_true, Bool.and_false, Bool.false_and, Bool.or_false] at h
    delta Char.isAlphanum Char.isAlpha Char.isUpper Char.isLower Char.isDigit at h
    simp only [Bool.or_eq_true, Bool.and_eq_true, decide_eq_true_eq, UInt32.le_iff_toNat_le] at h
    simp only [isSpace, Bool.or_eq_true, Bool.and_eq_true, decide_eq_true_eq, beq_iff_eq] at hs
    simp only [Char.toNat_val, Char.reduceVal, UInt32.reduceToNat] at h
    omega

theorem not_isSpace_of_between {c low high : Char} (hlow : low ≤ c) (hhigh : c ≤ high)
    (h₁ : 0x20 < low.toNat) (h₂ : high.toNat < 0xa0) : isSpace c = false := by
  have hl : low.toNat ≤ c.toNat := hlow
  have hh : c.toNat ≤ high.toNat := hhigh
  simp only [isSpace, Bool.or_eq_false_iff, Bool.and_eq_false_iff, decide_eq_false_iff_not,
    beq_eq_false_iff_ne]
  omega

theorem not_isSpace_of_isDigit {c : Char} (h : isDigit c = true) : isSpace c = false := by
  simp only [isDigit, Bool.and_eq_true, decide_eq_true_eq] at h
  exact not_isSpace_of_between h.1 h.2 (by decide) (by decide)

theorem not_isSpace_of_isHexDigit {c : Char} (h : isHexDigit c = true) : isSpace c = false := by
  simp only [isHexDigit, Bool.or_eq_true, Bool.and_eq_true, decide_eq_true_eq] at h
  rcases h with (h | h) | h
  · exact not_isSpace_of_isDigit h
  · exact not_isSpace_of_between h.1 h.2 (by decide) (by decide)
  · exact not_isSpace_of_between h.1 h.2 (by decide) (by decide)

end ComponentDecl.Syntax
