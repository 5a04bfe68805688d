import ComponentDecl.Proofs.Text.JoinedLines
import Mathlib.Algebra.GroupWithZero.Nat

/-! # Words of a text

    The words of a text are the stretches between its blanks.  They do not change when a
    text is stripped, when it is broken into lines or when lines are joined, so what is
    read off the words of a text survives all of that.

    Key theorems:
    - `words_lines`, `words_joinLines`: the words of a text are those of its lines
    - `words_trimWhile`: blanks that are cut off hold no word
    - `sum_words`: a count that no blank takes part in is a sum over the words
-/

namespace ComponentDecl.Text

/-- The stretches between the blanks of a text. -/
def words (cs : List Char) : List (List Char) :=
  (cs.splitOnP isBlank).filter (!·.isEmpty)

theorem words_nil : words [] = [] :=
  rfl

/-- A blank ends a word, and it starts no other. -/
theorem words_append_cons {c : Char} (h : isBlank c = true) (cs ds : List Char) :
    words (cs ++ c :: ds) = words cs ++ words ds := by
  unfold words
  rw [List.splitOnP_append_cons cs ds h, List.filter_append]

theorem words_cons_of_blank {c : Char} (h : isBlank c = true) (cs : List Char) :
    words (c :: cs) = words cs :=
  words_append_cons h [] cs

theorem words_blank_append {front : List Char} (h : ∀ c ∈ front, isBlank c = true)
    (cs : List Char) : words (front ++ cs) = words cs := by
  induction front with
  | nil => rfl
  | cons c front ih =>
    obtain ⟨hc, hfront⟩ := List.forall_mem_cons.mp h
    rw [List.cons_append, words_cons_of_blank hc, ih hfront]

theorem words_append_blank {back : List Char} (h : ∀ c ∈ back, isBlank c = true)
    (cs : List Char) : words (cs ++ back) = words cs := by
  cases back with
  | nil => rw [List.append_nil]
  | cons c back =>
    obtain ⟨hc, hback⟩ := List.forall_mem_cons.mp h
    have hnone : words back = [] := by
      rw [← List.append_nil back, words_blank_append hback, words_nil]
    rw [words_append_cons hc, hnone, List.append_nil]

/-- Blanks that are cut off hold no word. -/
theorem words_trimWhile {p : Char → Bool} (hp : ∀ c, p c = true → isBlank c = true)
    (cs : List Char) : words (trimWhile p cs) = words cs := by
  obtain ⟨front, back, hsplit, hfront, hback, -⟩ := trimWhile_spec (p := p) cs
  conv_rhs => rw [hsplit]
  rw [words_append_blank fun c hc => hp c (hback c hc),
    words_blank_append fun c hc => hp c (hfront c hc)]

theorem words_strip (s : String) : words (strip s).toList = words s.toList := by
  rw [strip, String.toList_ofList, words_trimWhile fun _ h => h]

theorem words_stripEnd (s : String) : words (stripEnd s).toList = words s.toList := by
  obtain ⟨back, hsplit, hback⟩ := dropEndWhile_append isBlank s.toList
  conv_rhs => rw [hsplit]
  rw [stripEnd, String.toList_ofList, words_append_blank hback]

theorem words_stripLineFeeds (s : String) :
    words (stripLineFeeds s).toList = words s.toList := by
  rw [stripLineFeeds, String.toList_ofList, words_trimWhile]
  intro c hc
  rw [eq_of_beq hc]
  decide

/-! ### Words of lines -/

/-- Breaking a text into lines takes only blanks out of it.  The induction is on the text,
    with the characters already read of the line in hand. -/
theorem words_linesFrom (line cs : List Char) :
    (linesFrom line cs).flatMap words = words (line.reverse ++ cs) := by
  fun_induction linesFrom line cs with
  | case1 line h =>
    rw [List.isEmpty_iff.mp h]
    rfl
  | case2 line => rw [List.flatMap_singleton, List.append_nil]
  | case3 line rest ih =>
    rw [List.flatMap_cons, ih, List.reverse_nil, List.nil_append, words_append_cons (by decide),
      words_cons_of_blank (by decide)]
  | case4 line c rest _ hbreak ih =>
    rw [List.flatMap_cons, ih, List.reverse_nil, List.nil_append,
      words_append_cons (isBlank_of_isLineBreak hbreak)]
  | case5 line c rest _ hbreak ih =>
    rw [ih, List.reverse_cons, List.append_assoc, List.singleton_append]

theorem words_lines (s : String) :
    ((lines s).flatMap fun l => words l.toList) = words s.toList := by
  have h := words_linesFrom [] s.toList
  rw [List.reverse_nil, List.nil_append] at h
  rw [lines, List.flatMap_map, ← h]
  simp only [String.toList_ofList]

theorem words_joinLines (ls : List String) :
    words (joinLines ls).toList = ls.flatMap fun l => words l.toList := by
  induction ls with
  | nil => rfl
  | cons l ls ih =>
    cases ls with
    | nil => rw [joinLines_singleton, List.flatMap_singleton]
    | cons k ls =>
      rw [joinLines_cons, words_append_cons (by decide), ih]
      rfl

/-! ### Read off the words -/

/-- The characters of the words are those that show. -/
theorem flatten_words (cs : List Char) : (words cs).flatten = cs.filter (!isBlank ·) := by
  rw [words, List.flatten_filter_not_isEmpty]
  induction cs with
  | nil => rfl
  | cons c cs ih =>
    rw [List.splitOnP_cons_eq_if_modifyHead]
    by_cases hc : isBlank c = true
    · rw [if_pos hc, List.flatten_cons, ih, List.filter_cons_of_neg (by rw [hc]; decide),
        List.nil_append]
    · rw [if_neg hc, List.filter_cons_of_pos (by simpa using hc), ← ih]
      -- There is always a first stretch, and the character goes in front of it.
      cases hsplit : cs.splitOnP isBlank with
      | nil => exact absurd hsplit (List.splitOnP_ne_nil _ _)
      | cons w ws => rfl

/-- A count that no blank takes part in is a sum over the words. -/
theorem sum_words {f : List Char → Nat} (hnil : f [] = 0)
    (hblank : ∀ cs c ds, isBlank c = true → f (cs ++ c :: ds) = f cs + f ds) (cs : List Char) :
    ((words cs).map f).sum = f cs := by
  have hstretch : ∀ (ws : List (List Char)),
      ((ws.filter (!·.isEmpty)).map f).sum = (ws.map f).sum := by
    intro ws
    induction ws with
    | nil => rfl
    | cons w ws ih =>
      cases w with
      | nil => rw [List.filter_cons_of_neg (by decide), ih, List.map_cons, List.sum_cons, hnil,
          Nat.zero_add]
      | cons c w => rw [List.filter_cons_of_pos rfl, List.map_cons, List.map_cons, List.sum_cons,
          List.sum_cons, ih]
  -- Generalized to what is already read of the current word.
  have hword : ∀ (w cs : List Char), (∀ c ∈ w, isBlank c = false) →
      (((w ++ cs).splitOnP isBlank).map f).sum = f (w ++ cs) := by
    intro w cs hw
    induction cs generalizing w with
    | nil =>
      have hsplit : (w ++ []).splitOnP isBlank = [w ++ []] :=
        List.splitOnP_eq_singleton (by rwa [List.append_nil])
      rw [hsplit, List.map_singleton, List.sum_singleton]
    | cons c cs ih =>
      by_cases hc : isBlank c = true
      · have hrest := ih [] nofun
        have hsplit : w.splitOnP isBlank = [w] := List.splitOnP_eq_singleton hw
        rw [List.nil_append] at hrest
        rw [List.splitOnP_append_cons _ _ hc, hblank w c cs hc, hsplit, List.map_append,
          List.sum_append, hrest, List.map_singleton, List.sum_singleton]
      · have hnext := ih (w ++ [c]) (by
          intro d hd
          rcases List.mem_append.mp hd with hd | hd
          · exact hw d hd
          · rw [List.mem_singleton.mp hd]
            simpa using hc)
        rwa [List.append_assoc, List.singleton_append] at hnext
  rw [words, hstretch]
  exact hword [] cs nofun

end ComponentDecl.Text
