import ComponentDecl.Proofs.Text.HeadLine
import Mathlib.Data.List.Basic

/-! # Lines and blanks

    A text that is joined from lines has these lines again, and cutting blanks off at its
    ends takes nothing that shows.

    Key theorems:
    - `lines_joinLines`: the lines of a text that is joined from lines
    - `trimWhile_between`: what is left of a text once both ends are cut off
-/

namespace ComponentDecl.Text

/-! ### Ends that are cut off -/

section Trim

variable {p : Char → Bool}

theorem dropEndWhile_of_last {cs : List Char} (h : ∀ c ∈ cs.getLast?, p c = false) :
    dropEndWhile p cs = cs := by
  unfold dropEndWhile
  rcases List.eq_nil_or_concat cs with rfl | ⟨front, c, rfl⟩
  · rfl
  · rw [List.concat_eq_append] at h ⊢
    have hc : p c = false := h c (by rw [List.getLast?_concat]; rfl)
    rw [List.reverse_append, List.reverse_singleton, List.singleton_append,
      List.dropWhile_cons_of_neg (by rw [hc]; exact Bool.false_ne_true), List.reverse_cons,
      List.reverse_reverse]

theorem dropEndWhile_append_of_all {cs back : List Char} (h : ∀ c ∈ back, p c = true) :
    dropEndWhile p (cs ++ back) = dropEndWhile p cs := by
  unfold dropEndWhile
  rw [List.reverse_append, List.dropWhile_append_of_pos]
  intro c hc
  exact h c (List.mem_reverse.mp hc)

/-- What shows at both ends is kept, and the blanks around it are cut off. -/
theorem trimWhile_between {front core back : List Char} (hfront : ∀ c ∈ front, p c = true)
    (hback : ∀ c ∈ back, p c = true) (hfirst : ∀ c ∈ core.head?, p c = false)
    (hlast : ∀ c ∈ core.getLast?, p c = false) :
    trimWhile p (front ++ core ++ back) = core := by
  unfold trimWhile
  rw [List.append_assoc, List.dropWhile_append_of_pos hfront]
  cases core with
  | nil =>
    have hdrop : ([] ++ back).dropWhile p = [] := List.dropWhile_eq_nil_iff.mpr hback
    rw [hdrop]
    rfl
  | cons c core =>
    have hc : p c = false := hfirst c rfl
    rw [List.cons_append, List.dropWhile_cons_of_neg (by rw [hc]; exact Bool.false_ne_true),
      ← List.cons_append, dropEndWhile_append_of_all hback]
    exact dropEndWhile_of_last hlast

theorem trimWhile_of_ends {core : List Char} (hfirst : ∀ c ∈ core.head?, p c = false)
    (hlast : ∀ c ∈ core.getLast?, p c = false) : trimWhile p core = core := by
  have hnone : ∀ c ∈ ([] : List Char), p c = true := nofun
  have h := trimWhile_between hnone hnone hfirst hlast
  rwa [List.nil_append, List.append_nil] at h

theorem getLast?_dropEndWhile (cs : List Char) :
    ∀ c ∈ (dropEndWhile p cs).getLast?, p c = false := by
  intro c hc
  have hhead := List.head?_dropWhile_not p cs.reverse
  rw [dropEndWhile, List.getLast?_reverse] at hc
  rw [hc] at hhead
  simpa using hhead

/-- A text is what is left of it, between blanks. -/
theorem trimWhile_spec (cs : List Char) :
    ∃ front back, cs = front ++ trimWhile p cs ++ back ∧ (∀ c ∈ front, p c = true) ∧
      (∀ c ∈ back, p c = true) ∧ (∀ c ∈ (trimWhile p cs).head?, p c = false) ∧
      ∀ c ∈ (trimWhile p cs).getLast?, p c = false := by
  obtain ⟨back, hback, hall⟩ := dropEndWhile_append p (cs.dropWhile p)
  refine ⟨cs.takeWhile p, back, ?_, fun c => List.mem_takeWhile_imp, hall, ?_,
    getLast?_dropEndWhile _⟩
  · rw [List.append_assoc, trimWhile, ← hback, List.takeWhile_append_dropWhile]
  · intro c hc
    have hhead := List.head?_dropWhile_not p cs
    have hfirst : (dropEndWhile p (cs.dropWhile p)).head? = some c := hc
    rw [hback, List.head?_append, hfirst] at hhead
    simpa using hhead

/-- Blanks around a text do not matter. -/
theorem trimWhile_blank_append {front : List Char} (h : ∀ c ∈ front, p c = true) (cs : List Char) :
    trimWhile p (front ++ cs) = trimWhile p cs := by
  unfold trimWhile
  rw [List.dropWhile_append_of_pos h]

/-- Cutting blanks off at the end leaves a start that is not blank at its end. -/
theorem prefix_dropEndWhile {front cs : List Char} {c : Char}
    (h : front ++ [c] <+: cs) (hc : p c = false) : front ++ [c] <+: dropEndWhile p cs := by
  obtain ⟨rest, hrest, hall⟩ := dropEndWhile_append p cs
  rw [hrest] at h
  refine List.prefix_of_prefix_length_le h (List.prefix_append _ _) ?_
  by_contra hlt
  rw [Nat.not_le] at hlt
  -- Else the last character of the start would be one of those cut off.
  obtain ⟨tail, htail⟩ := h
  rw [List.length_append, List.length_singleton] at hlt
  have hget : (dropEndWhile p cs ++ rest)[front.length]? = some c := by
    rw [← htail, List.append_assoc, List.getElem?_append_right (Nat.le_refl _), Nat.sub_self]
    rfl
  rw [List.getElem?_append_right (by omega)] at hget
  rw [hall c (List.mem_of_getElem? hget)] at hc
  cases hc

/-- A start that shows at both its ends is not cut off. -/
theorem prefix_trimWhile {first last : Char} {inner cs : List Char}
    (h : first :: inner ++ [last] <+: cs) (hfirst : p first = false) (hlast : p last = false) :
    first :: inner ++ [last] <+: trimWhile p cs := by
  unfold trimWhile
  have hkept : cs.dropWhile p = cs := by
    obtain ⟨rest, rfl⟩ := h
    exact List.dropWhile_cons_of_neg (by rw [hfirst]; exact Bool.false_ne_true)
  rw [hkept]
  exact prefix_dropEndWhile h hlast

/-- An end that shows at both its ends is not cut off. -/
theorem suffix_trimWhile {first last : Char} {inner cs : List Char}
    (h : first :: inner ++ [last] <:+ cs) (hfirst : p first = false) (hlast : p last = false) :
    first :: inner ++ [last] <:+ trimWhile p cs := by
  obtain ⟨front, rfl⟩ := h
  have hsplit : (front ++ (first :: inner ++ [last])).dropWhile p =
      front.dropWhile p ++ (first :: inner ++ [last]) := by
    induction front with
    | nil => exact List.dropWhile_cons_of_neg (by rw [hfirst]; exact Bool.false_ne_true)
    | cons c front ih =>
      by_cases hc : p c = true
      · rw [List.cons_append, List.dropWhile_cons_of_pos hc, List.dropWhile_cons_of_pos hc, ih]
      · rw [List.cons_append, List.dropWhile_cons_of_neg hc, List.dropWhile_cons_of_neg hc]
        rfl
  unfold trimWhile
  rw [hsplit, dropEndWhile_of_last]
  · exact List.suffix_append _ _
  · intro c hc
    rw [← List.append_assoc, List.getLast?_concat] at hc
    obtain rfl := Option.some.inj hc
    exact hlast

end Trim

/-! ### Lines of characters -/

/-- Every break is blank. -/
theorem isBlank_of_isLineBreak {c : Char} (h : isLineBreak c = true) : isBlank c = true := by
  simp only [isLineBreak, isBlank, Bool.or_eq_true, Bool.and_eq_true, decide_eq_true_eq,
    beq_iff_eq] at h ⊢
  omega

/-- Holds of a line: it has no break in it. -/
def Unbroken (line : List Char) : Prop :=
  ∀ c ∈ line, isLineBreak c = false

theorem unbroken_nil : Unbroken [] :=
  nofun

theorem unbroken_of_all {line : List Char} (h : line.all (!isLineBreak ·) = true) :
    Unbroken line := by
  intro c hc
  exact Bool.not_eq_true' _ ▸ List.all_eq_true.mp h c hc

theorem unbroken_linesFrom {line : List Char} (cs : List Char) (h : Unbroken line) :
    ∀ l ∈ linesFrom line cs, Unbroken l := by
  have hline : ∀ {line : List Char}, Unbroken line → Unbroken line.reverse :=
    fun h c hc => h c (List.mem_reverse.mp hc)
  fun_induction linesFrom line cs with
  | case1 => exact List.forall_mem_nil _
  | case2 line =>
    intro l hl
    rw [List.mem_singleton.mp hl]
    exact hline h
  | case3 line rest ih =>
    exact List.forall_mem_cons.mpr ⟨hline h, ih unbroken_nil⟩
  | case4 line c rest _ hbreak ih =>
    exact List.forall_mem_cons.mpr ⟨hline h, ih unbroken_nil⟩
  | case5 line c rest _ hbreak ih =>
    exact ih (List.forall_mem_cons.mpr ⟨by simpa using hbreak, h⟩)

/-- A stretch without a break goes on with the current line. -/
theorem linesFrom_append {piece : List Char} (h : Unbroken piece) (line rest : List Char) :
    linesFrom line (piece ++ rest) = linesFrom (piece.reverse ++ line) rest := by
  induction piece generalizing line with
  | nil => rfl
  | cons c piece ih =>
    obtain ⟨hc, hpiece⟩ := List.forall_mem_cons.mp h
    have hreturn : c ≠ '\r' := by
      rintro rfl
      exact absurd hc (by decide)
    rw [List.cons_append, linesFrom, if_neg (by rw [hc]; exact Bool.false_ne_true), ih hpiece,
      List.reverse_cons, List.append_assoc]
    · rfl
    · exact fun _ hc' _ => hreturn hc'

theorem linesFrom_newline (line rest : List Char) :
    linesFrom line ('\n' :: rest) = line.reverse :: linesFrom [] rest := by
  rw [linesFrom, if_pos (by decide)]
  nofun

/-- The last line ends as the text does, if there is no break in that end. -/
theorem getLast?_linesFrom {tail : List Char} (h : Unbroken tail) (hne : tail ≠ [])
    (line cs : List Char) :
    ∃ front, (linesFrom line (cs ++ tail)).getLast? = some (front ++ tail) := by
  have hend : ∀ line, ∃ front, (linesFrom line tail).getLast? = some (front ++ tail) := by
    intro line
    have hlast := linesFrom_append h line []
    rw [List.append_nil] at hlast
    refine ⟨line.reverse, ?_⟩
    rw [hlast, linesFrom, if_neg (by simp [hne])]
    simp
  have hcons : ∀ {l : List Char} {ls : List (List Char)} {x : List Char}, ls.getLast? = some x →
      (l :: ls).getLast? = some x := by
    intro l ls x hls
    cases ls with
    | nil => cases hls
    | cons k ls => rwa [List.getLast?_cons_cons]
  fun_induction linesFrom line cs with
  | case1 line => exact hend line
  | case2 line => exact hend line
  | case3 line rest ih =>
    obtain ⟨front, hfront⟩ := ih
    exact ⟨front, by rw [List.cons_append, List.cons_append, linesFrom]; exact hcons hfront⟩
  | case4 line c rest hpair hbreak ih =>
    obtain ⟨front, hfront⟩ := ih
    refine ⟨front, ?_⟩
    rw [List.cons_append, linesFrom, if_pos hbreak]
    · exact hcons hfront
    · -- The end does not complete a pair of breaks.
      rintro rest' hc hrest
      cases rest with
      | nil =>
        obtain rfl : tail = '\n' :: rest' := hrest
        exact absurd (h '\n' List.mem_cons_self) (by decide)
      | cons d rest =>
        obtain ⟨rfl, -⟩ := List.cons.inj hrest
        exact hpair rest hc rfl
  | case5 line c rest hpair hbreak ih =>
    obtain ⟨front, hfront⟩ := ih
    refine ⟨front, ?_⟩
    rw [List.cons_append, linesFrom, if_neg hbreak]
    · exact hfront
    · rintro rest' rfl -
      exact hbreak (by decide)

/-! ### Texts joined from lines -/

theorem joinLines_cons (l k : String) (ls : List String) :
    (joinLines (l :: k :: ls)).toList = l.toList ++ '\n' :: (joinLines (k :: ls)).toList := by
  rw [joinLines, String.intercalate_cons_cons, String.toList_append, String.toList_append,
    List.append_assoc]
  rfl

theorem joinLines_singleton (l : String) : joinLines [l] = l := by
  rw [joinLines, String.intercalate_singleton]

theorem prefix_joinLines (l : String) (ls : List String) :
    l.toList <+: (joinLines (l :: ls)).toList := by
  cases ls with
  | nil =>
    exact joinLines_singleton l ▸ List.prefix_rfl
  | cons k ls =>
    rw [joinLines_cons]
    exact List.prefix_append _ _

theorem suffix_joinLines {ls : List String} {l : String} (h : ls.getLast? = some l) :
    l.toList <:+ (joinLines ls).toList := by
  induction ls with
  | nil => cases h
  | cons k ls ih =>
    cases ls with
    | nil =>
      obtain rfl := Option.some.inj h
      rw [joinLines_singleton]
      exact List.suffix_rfl
    | cons k' ls =>
      rw [List.getLast?_cons_cons] at h
      rw [joinLines_cons]
      exact (ih h).trans ((List.suffix_cons _ _).trans (List.suffix_append _ _))

/-- A text that is joined from lines has these lines, if the last one is not empty. -/
theorem lines_joinLines {ls : List String} (hls : ∀ l ∈ ls, Unbroken l.toList)
    (hlast : ∀ l ∈ ls.getLast?, l ≠ "") : lines (joinLines ls) = ls := by
  induction ls with
  | nil => rfl
  | cons l ls ih =>
    obtain ⟨hl, hls⟩ := List.forall_mem_cons.mp hls
    unfold lines at ih ⊢
    cases ls with
    | nil =>
      have hne : l.toList ≠ [] := fun h => hlast l rfl (String.toList_eq_nil_iff.mp h)
      have hline := linesFrom_append hl [] []
      rw [List.append_nil, List.append_nil] at hline
      rw [joinLines_singleton, hline, linesFrom, if_neg (by simpa using hne)]
      simp
    | cons k ls =>
      rw [joinLines_cons, linesFrom_append hl, linesFrom_newline, List.map_cons,
        ih hls (by rwa [List.getLast?_cons_cons] at hlast)]
      simp

end ComponentDecl.Text
