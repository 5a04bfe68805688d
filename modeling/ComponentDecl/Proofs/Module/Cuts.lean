import ComponentDecl.Proofs.Module.Rows

/-! # What goes away with a row

    With a row go the blanks before it on its line, if nothing else stands
    there, and the blanks after it with one line break.  Both are parts of the
    gaps around the row, and two neighbours never take the same blanks.

    Key theorems:
    - `lineStart_row`, `lineStop_row`: the cuts that the program makes
    - `cutBefore_suffix_afterLine`: the cuts of neighbours are disjoint
-/

namespace ComponentDecl

open Syntax Text Lexeme

/-! ### Lines -/

theorem isSpace_of_isBlankAscii {c : Char} (h : isBlankAscii c = true) : isSpace c = true := by
  simp only [isBlankAscii, Bool.or_eq_true, Bool.and_eq_true, decide_eq_true_eq, beq_iff_eq] at h
  simp only [isSpace, Bool.or_eq_true, Bool.and_eq_true, decide_eq_true_eq, beq_iff_eq]
  omega

@[simp] theorem lastLine_nil : lastLine [] = [] := rfl

theorem lastLine_append_of_mem {s t : List Char} (h : '\n' ∈ t) :
    lastLine (s ++ t) = lastLine t := by
  unfold lastLine
  have hne : ¬ ∀ c ∈ t.reverse, (c != '\n') = true := by
    intro hall
    simpa using hall '\n' (List.mem_reverse.mpr h)
  have hlen : (t.reverse.takeWhile (· != '\n')).length ≠ t.reverse.length := by
    intro heq
    apply hne
    have heq := (List.takeWhile_prefix (l := t.reverse) (· != '\n')).eq_of_length heq
    have hall := List.all_takeWhile (l := t.reverse) (p := (· != '\n'))
    rw [heq] at hall
    exact List.all_eq_true.mp hall
  rw [List.reverse_append, List.takeWhile_append, if_neg hlen]

theorem lastLine_append_of_notMem {s t : List Char} (h : '\n' ∉ t) :
    lastLine (s ++ t) = lastLine s ++ t := by
  unfold lastLine
  rw [List.reverse_append, List.takeWhile_append_of_pos, List.reverse_append, List.reverse_reverse]
  intro c hc
  have : c ≠ '\n' := by
    rintro rfl
    exact h (List.mem_reverse.mp hc)
  simpa using this

theorem lastLine_suffix (s : List Char) : lastLine s <:+ s := by
  have := List.takeWhile_prefix (l := s.reverse) (· != '\n')
  simpa [lastLine] using List.reverse_suffix.mpr this

theorem newline_notMem_lastLine (s : List Char) : '\n' ∉ lastLine s := by
  intro h
  have := List.mem_reverse.mp h
  have hall := List.all_eq_true.mp (List.all_takeWhile (p := (· != '\n')) (l := s.reverse)) _ this
  simp at hall

/-- A last line with a visible character is not blank. -/
theorem lastLine_not_blank {s : List Char} (h : EndsVisibly s) :
    (lastLine s).all isBlankAscii = false := by
  obtain ⟨before, c, after, rfl, hc, hafter⟩ := h
  have hne : c ≠ '\n' := by
    rintro rfl
    exact absurd hc (by decide)
  have hnot : '\n' ∉ c :: after := by
    rw [List.mem_cons]
    exact not_or.mpr ⟨hne.symm, hafter⟩
  rw [lastLine_append_of_notMem hnot]
  refine List.all_eq_false.mpr ⟨c, by simp, fun hblank => ?_⟩
  rw [isSpace_of_isBlankAscii hblank] at hc
  cases hc

/-! ### Before a row -/

/-- The blanks before a row that go away with it, given the gap before the row
    and whether the gap starts the module. -/
def cutBefore (first : Bool) (gap : List Char) : List Char :=
  if (first || gap.contains '\n') && (lastLine gap).all isBlankAscii then lastLine gap else []

theorem cutBefore_suffix (first : Bool) (gap : List Char) : cutBefore first gap <:+ gap := by
  unfold cutBefore
  split
  · exact lastLine_suffix gap
  · exact List.nil_suffix

theorem newline_notMem_cutBefore (first : Bool) (gap : List Char) :
    '\n' ∉ cutBefore first gap := by
  unfold cutBefore
  split
  · exact newline_notMem_lastLine gap
  · exact List.not_mem_nil

theorem cutBefore_blank (first : Bool) (gap : List Char) :
    (cutBefore first gap).all isBlankAscii = true := by
  unfold cutBefore
  split
  · next h => exact (Bool.and_eq_true_iff.mp h).2
  · rfl

/-- What a row leaves of `pending`, the end of the gap before it. -/
def uncut (first : Bool) (gap pending : List Char) : List Char :=
  pending.take (pending.length - (cutBefore first gap).length)

theorem uncut_append {first : Bool} {gap pending : List Char}
    (h : cutBefore first gap <:+ pending) :
    uncut first gap pending ++ cutBefore first gap = pending :=
  List.suffix_iff_eq_append.mp h

/-- The program starts a cut at the start of the blanks that go away. -/
theorem lineStart_row {first : Bool} {before gap after : List Char}
    (h : first = true ∧ before = [] ∨ first = false ∧ EndsVisibly before) :
    lineStartIfBlank (encodeChars (before ++ gap ++ after)) (size (before ++ gap)) =
      size (before ++ gap) - size (cutBefore first gap) := by
  have htake : (encodeChars (before ++ gap ++ after)).take (size (before ++ gap)) =
      encodeChars (before ++ gap) := by
    rw [encodeChars_append (before ++ gap), size, List.take_left]
  rw [lineStartIfBlank_eq htake]
  have hline : (lastLine (before ++ gap)).all isBlankAscii =
        ((first || gap.contains '\n') && (lastLine gap).all isBlankAscii) ∧
      ((first || gap.contains '\n') = true → lastLine (before ++ gap) = lastLine gap) := by
    by_cases hmem : '\n' ∈ gap
    · rw [lastLine_append_of_mem hmem]
      simp [hmem]
    · rw [lastLine_append_of_notMem hmem]
      have hgap : lastLine gap = gap := by
        simpa using lastLine_append_of_notMem (s := []) hmem
      rcases h with ⟨rfl, rfl⟩ | ⟨rfl, hends⟩
      · simp [hgap]
      · simp [hmem, lastLine_not_blank hends]
  unfold cutBefore
  rw [hline.1]
  split
  · next hcut => rw [hline.2 (Bool.and_eq_true_iff.mp hcut).1]
  · simp

/-! ### After a row -/

/-- The line break at the start of a text. -/
def lineBreak : List Char → List Char
  | '\r' :: '\n' :: _ => ['\r', '\n']
  | '\n' :: _ => ['\n']
  | _ => []

theorem lineBreak_prefix (cs : List Char) : lineBreak cs <+: cs := by
  unfold lineBreak
  split
  · exact ⟨_, rfl⟩
  · exact ⟨_, rfl⟩
  · exact List.nil_prefix

theorem lineBreak_append {left rest : List Char} {c : Char} (hreturn : c ≠ '\r')
    (hfeed : c ≠ '\n') : lineBreak (left ++ c :: rest) = lineBreak left := by
  rcases left with _ | ⟨a, _ | ⟨b, left⟩⟩
  · simp [lineBreak, hreturn, hfeed]
  · by_cases ha : a = '\n'
    · simp [lineBreak, ha]
    · simp [lineBreak, ha, hfeed]
  · by_cases hpair : a = '\r' ∧ b = '\n'
    · simp [lineBreak, hpair]
    · by_cases ha : a = '\n'
      · simp [lineBreak, ha]
      · have key : ∀ more, lineBreak (a :: b :: more) = [] := by
          intro more
          unfold lineBreak
          split
          · next h =>
            rw [List.cons.injEq, List.cons.injEq] at h
            exact absurd ⟨h.1, h.2.1⟩ hpair
          · next h =>
            rw [List.cons.injEq] at h
            exact absurd h.1 ha
          · rfl
        rw [List.cons_append, List.cons_append, key, key]

/-- Spaces and tabs. -/
def lineSpaces (cs : List Char) : List Char := cs.takeWhile fun c => c == ' ' || c == '\t'

theorem lineRest_eq (cs : List Char) :
    lineRest cs = lineSpaces cs ++ lineBreak (cs.drop (lineSpaces cs).length) := by
  unfold lineRest lineSpaces
  dsimp only
  generalize cs.drop (cs.takeWhile fun c => c == ' ' || c == '\t').length = left
  split
  · rfl
  · rfl
  · next hpair hfeed =>
    have hnone : lineBreak left = [] := by
      unfold lineBreak
      split
      · exact absurd rfl (hpair _)
      · exact absurd rfl (hfeed _)
      · rfl
    rw [hnone, List.append_nil]

theorem prefix_lineRest (cs : List Char) : lineRest cs <+: cs := by
  have hspaces : lineSpaces cs ++ cs.drop (lineSpaces cs).length = cs :=
    List.prefix_iff_eq_append.mp (List.takeWhile_prefix _)
  rw [lineRest_eq]
  obtain ⟨rest, hrest⟩ := lineBreak_prefix (cs.drop (lineSpaces cs).length)
  exact ⟨rest, by rw [List.append_assoc, hrest, hspaces]⟩

/-- What a gap has left after the rest of the line. -/
def afterLine (gap : List Char) : List Char := gap.drop (lineRest gap).length

theorem lineRest_append_afterLine (gap : List Char) : lineRest gap ++ afterLine gap = gap :=
  List.prefix_iff_eq_append.mp (prefix_lineRest gap)

/-- Visible text ends the rest of a line. -/
theorem lineRest_append {gap rest : List Char} (h : rest = [] ∨ StartsVisibly rest) :
    lineRest (gap ++ rest) = lineRest gap := by
  rcases h with rfl | ⟨c, rest, rfl, hc⟩
  · rw [List.append_nil]
  have hne : ∀ d, isSpace d = true → c ≠ d := by
    rintro d hd rfl
    rw [hd] at hc
    cases hc
  have hspaces : lineSpaces (gap ++ c :: rest) = lineSpaces gap := by
    unfold lineSpaces
    rw [List.takeWhile_append]
    split
    · next heq =>
      rw [List.takeWhile_cons_of_neg (by simp [hne ' ' (by decide), hne '\t' (by decide)]),
        List.append_nil]
      exact ((List.takeWhile_prefix _).eq_of_length heq).symm
    · rfl
  have hlen : (lineSpaces gap).length ≤ gap.length := (List.takeWhile_prefix _).length_le
  rw [lineRest_eq, lineRest_eq, hspaces, List.drop_append_of_le_length hlen,
    lineBreak_append (hne '\r' (by decide)) (hne '\n' (by decide))]

/-- The program ends a cut after the rest of the line. -/
theorem lineStop_row {before gap after : List Char} (h : after = [] ∨ StartsVisibly after) :
    lineRestEnd (encodeChars (before ++ (gap ++ after))) (size before) =
      size before + size (lineRest gap) := by
  have hdrop : (encodeChars (before ++ (gap ++ after))).drop (size before) =
      encodeChars (gap ++ after) := by
    rw [encodeChars_append before, size, List.drop_left]
  rw [lineRestEnd_eq hdrop, lineRest_append h]

/-! ### Neighbours -/

/-- A line break in the rest of a line ends it. -/
theorem newline_lineRest {gap : List Char} (h : '\n' ∈ lineRest gap) :
    ∃ before, lineRest gap = before ++ ['\n'] := by
  rw [lineRest_eq] at h ⊢
  rcases List.mem_append.mp h with hspaces | hbreak
  · have := List.all_eq_true.mp List.all_takeWhile _ hspaces
    simp at this
  · unfold lineBreak at hbreak ⊢
    split at hbreak
    · exact ⟨lineSpaces gap ++ ['\r'], by simp⟩
    · exact ⟨lineSpaces gap, rfl⟩
    · cases hbreak

/-- The blanks that go away with a row are among those that the row before it
    leaves. -/
theorem cutBefore_suffix_afterLine (gap : List Char) :
    cutBefore false gap <:+ afterLine gap := by
  unfold cutBefore
  split
  · next h =>
    have hmem : '\n' ∈ gap := by
      simpa using (Bool.and_eq_true_iff.mp h).1
    have hgap := lineRest_append_afterLine gap
    by_cases hafter : '\n' ∈ afterLine gap
    · rw [← hgap, lastLine_append_of_mem hafter]
      rw [hgap]
      exact lastLine_suffix _
    · rw [← hgap, List.mem_append] at hmem
      obtain ⟨before, hbefore⟩ := newline_lineRest (hmem.resolve_right hafter)
      have hline : lastLine gap = afterLine gap := by
        have hsplit : gap = before ++ ('\n' :: afterLine gap) := by
          conv_lhs => rw [← hgap, hbefore]
          simp
        rw [hsplit, lastLine_append_of_mem (by simp), ← hsplit,
          show '\n' :: afterLine gap = ['\n'] ++ afterLine gap from rfl,
          lastLine_append_of_notMem hafter]
        rfl
      exact hline.symm ▸ List.suffix_refl _
  · exact List.nil_suffix

end ComponentDecl
