import ComponentDecl.Proofs.Syntax.Visible

/-! # The ends of lexemes

    Names, words, marks, numbers, comments and flags all end visibly.  The class
    of white space is the only one used by the grammar in whose place a
    statement could end and that does not. -/

namespace ComponentDecl.Syntax

open Lexeme

/-- Every lexeme of the class ends visibly. -/
def Lexeme.Shows (l : Lexeme) : Prop :=
  ∀ s n, l s = some n → EndsVisibly (s.take n)

/-- Every character up to a place is visible. -/
def VisibleUpTo (n : Nat) (s : List Char) : Prop :=
  ∀ c ∈ s.take n, isSpace c = false

theorem VisibleUpTo.endsVisibly {n : Nat} {s : List Char} (h : VisibleUpTo n s)
    (hn : 0 < n) (hs : s ≠ []) : EndsVisibly (s.take n) := by
  refine endsVisibly_of_forall ?_ h
  cases s with
  | nil => exact absurd rfl hs
  | cons c s =>
    obtain ⟨n, rfl⟩ : ∃ k, n = k + 1 := ⟨n - 1, by omega⟩
    simp

theorem visibleUpTo_zero (s : List Char) : VisibleUpTo 0 s := by
  simp [VisibleUpTo]

theorem VisibleUpTo.cons {n : Nat} {c : Char} {s : List Char} (hc : isSpace c = false)
    (h : VisibleUpTo n s) : VisibleUpTo (n + 1) (c :: s) := by
  intro d hd
  rcases List.mem_cons.mp hd with rfl | hd
  · exact hc
  · exact h d hd

theorem VisibleUpTo.add {n k : Nat} {s : List Char} (h : VisibleUpTo n s)
    (h' : VisibleUpTo k (s.drop n)) : VisibleUpTo (n + k) s := by
  intro c hc
  rw [List.take_add, List.mem_append] at hc
  exact hc.elim (h c) (h' c)

/-! ### Given texts -/

theorem take_length_of_isPrefixOf {m s : List Char} (h : m.isPrefixOf s = true) :
    s.take m.length = m := by
  obtain ⟨t, rfl⟩ := List.isPrefixOf_iff_prefix.mp h
  simp

theorem shows_exactly {m : List Char} (hm : lastVisible m = true) : (exactly m).Shows := by
  intro s n h
  unfold exactly at h
  split at h
  · next hp =>
    cases h
    rw [take_length_of_isPrefixOf hp]
    exact endsVisibly_of_lastVisible hm
  · cases h

theorem shows_exactlyUnless {m : List Char} (continuations : List (List Char))
    (hm : lastVisible m = true) : (exactlyUnless m continuations).Shows := by
  intro s n h
  unfold exactlyUnless at h
  split at h
  · next hp =>
    cases h
    rw [take_length_of_isPrefixOf (Bool.and_eq_true _ _ ▸ hp).1]
    exact endsVisibly_of_lastVisible hm
  · cases h

theorem shows_exactWord {w : List Char} (hw : lastVisible w = true) : (exactWord w).Shows := by
  intro s n h
  unfold exactWord at h
  split at h
  · next hp =>
    cases h
    rw [take_length_of_isPrefixOf (Bool.and_eq_true _ _ ▸ hp).1]
    exact endsVisibly_of_lastVisible hw
  · cases h

/-! ### Names -/

theorem visibleUpTo_takeWhile {p : Char → Bool} (hp : ∀ c, p c = true → isSpace c = false)
    (s : List Char) : VisibleUpTo (s.takeWhile p).length s := by
  intro c hc
  have hprefix := List.takeWhile_prefix (l := s) p
  rw [← List.prefix_iff_eq_take.mp hprefix] at hc
  exact hp c (List.all_eq_true.mp List.all_takeWhile c hc)

theorem visibleUpTo_nameEscape {s : List Char} {n : Nat} (h : nameEscape s = some n) :
    VisibleUpTo n s := by
  unfold nameEscape at h
  split at h
  · next rest =>
    dsimp only at h
    split at h
    · next more hmore =>
      split at h
      · cases h
      · cases h
        have hdigits := visibleUpTo_takeWhile (p := isHexDigit)
          (fun c => not_isSpace_of_isHexDigit) rest
        have hclose : VisibleUpTo 1 (rest.drop (rest.takeWhile isHexDigit).length) := by
          rw [hmore]
          exact (visibleUpTo_zero more).cons (by decide)
        exact (((hdigits.add hclose).cons (by decide)).cons (by decide)).cons (by decide)
    · cases h
  · next a b c d _ _ =>
    split at h
    · next hall =>
      cases h
      simp only [List.all_cons, List.all_nil, Bool.and_true, Bool.and_eq_true] at hall
      obtain ⟨ha, hb, hc, hd⟩ := hall
      exact (((((visibleUpTo_zero _).cons (not_isSpace_of_isHexDigit hd)).cons
        (not_isSpace_of_isHexDigit hc)).cons (not_isSpace_of_isHexDigit hb)).cons
        (not_isSpace_of_isHexDigit ha)).cons (by decide) |>.cons (by decide)
    · cases h
  · cases h

theorem visibleUpTo_nameChars (fuel : Nat) (s : List Char) :
    VisibleUpTo (nameChars fuel s) s := by
  induction fuel generalizing s with
  | zero => simpa [nameChars] using visibleUpTo_zero s
  | succ fuel ih =>
    cases s with
    | nil => simpa [nameChars] using visibleUpTo_zero []
    | cons c rest =>
      rw [nameChars]
      split
      · next hc => exact (ih rest).cons (not_isSpace_of_isNameChar hc)
      · split
        · next n hn =>
          have hescape := visibleUpTo_nameEscape hn
          have hpos : 0 < n := by
            unfold nameEscape at hn
            grind
          obtain ⟨k, rfl⟩ : ∃ k, n = k + 1 := ⟨n - 1, by omega⟩
          rw [Nat.add_comm]
          exact hescape.add (ih _)
        · exact visibleUpTo_zero _

theorem shows_word : word.Shows := by
  intro s n h
  unfold word at h
  split at h
  · cases h
  · next c rest =>
    split at h
    · cases h
    · have hvisible := visibleUpTo_nameChars (c :: rest).length (c :: rest)
      cases hk : nameChars (c :: rest).length (c :: rest) with
      | zero =>
        rw [hk] at h
        cases h
      | succ k =>
        rw [hk] at h hvisible
        cases h
        exact hvisible.endsVisibly (by omega) (by simp)

theorem shows_name : name.Shows := by
  intro s n h
  have hword := (Option.filter_eq_some_iff.mp h).1
  exact shows_word s n hword

theorem shows_privateName : privateName.Shows := by
  intro s n h
  unfold privateName at h
  split at h
  · next rest =>
    obtain ⟨k, hk, rfl⟩ := Option.map_eq_some_iff.mp h
    exact (shows_word _ _ hk).prepend ['#']
  · cases h

theorem shows_regexFlags : regexFlags.Shows := by
  intro s n h
  unfold regexFlags at h
  have hvisible : VisibleUpTo (s.takeWhile fun c => 'a' ≤ c && c ≤ 'z').length s := by
    refine visibleUpTo_takeWhile (fun c hc => ?_) s
    simp only [Bool.and_eq_true, decide_eq_true_eq] at hc
    exact not_isSpace_of_between hc.1 hc.2 (by decide) (by decide)
  cases hk : (s.takeWhile fun c => 'a' ≤ c && c ≤ 'z').length with
  | zero => simp [hk] at h
  | succ k =>
    rw [hk] at h hvisible
    cases h
    refine hvisible.endsVisibly (by omega) ?_
    rintro rfl
    simp at hk

/-! ### Comments -/

theorem endsVisibly_blockCommentRest {s : List Char} {n : Nat}
    (h : blockCommentRest s = some n) : EndsVisibly (s.take n) := by
  induction s generalizing n with
  | nil => simp [blockCommentRest] at h
  | cons c s ih =>
    rw [blockCommentRest.eq_def] at h
    split at h
    · next rest heq =>
      cases h
      rw [heq]
      exact endsVisibly_of_lastVisible rfl
    · next rest _ heq =>
      cases heq
      obtain ⟨k, hk, rfl⟩ := Option.map_eq_some_iff.mp h
      exact (ih hk).prepend [c]
    · next heq => cases heq

/-- The rest of a line has no line feed in it. -/
theorem not_mem_takeWhile_lineEnd (s : List Char) : '\n' ∉ s.takeWhile (!isLineEnd ·) := by
  intro h
  have := List.all_eq_true.mp List.all_takeWhile _ h
  simp [isLineEnd] at this

theorem endsVisibly_line {c d : Char} (hc : isSpace c = false) (hd : d ≠ '\n')
    (rest : List Char) :
    EndsVisibly ((c :: d :: rest).take ((rest.takeWhile (!isLineEnd ·)).length + 2)) := by
  refine ⟨[], c, d :: rest.takeWhile (!isLineEnd ·), ?_, hc, ?_⟩
  · have hprefix := List.takeWhile_prefix (l := rest) (!isLineEnd ·)
    simp [← List.prefix_iff_eq_take.mp hprefix]
  · intro h
    rcases List.mem_cons.mp h with h | h
    · exact hd h.symm
    · exact not_mem_takeWhile_lineEnd rest h

theorem shows_comment : comment.Shows := by
  intro s n h
  unfold comment at h
  split at h
  · next rest =>
    cases h
    exact endsVisibly_line (by decide) (by decide) rest
  · next rest =>
    obtain ⟨k, hk, rfl⟩ := Option.map_eq_some_iff.mp h
    exact (endsVisibly_blockCommentRest hk).prepend ['/', '*']
  · cases h

theorem shows_hashBang : hashBang.Shows := by
  intro s n h
  unfold hashBang at h
  split at h
  · next rest =>
    cases h
    exact endsVisibly_line (by decide) (by decide) rest
  · cases h

/-! ### Numbers -/

theorem visibleUpTo_digits {p : Char → Bool} (hp : ∀ c, p c = true → isSpace c = false)
    (s : List Char) : VisibleUpTo (digits p s) s := by
  fun_induction digits p s with
  | case1 d rest hd ih => exact (ih.cons (hp d hd)).cons (by decide)
  | case2 => exact visibleUpTo_zero _
  | case3 d rest _ hd ih => exact ih.cons (hp d hd)
  | case4 => exact visibleUpTo_zero _
  | case5 => exact visibleUpTo_zero _

theorem visibleUpTo_exponent (s : List Char) : VisibleUpTo (exponent s) s := by
  unfold exponent
  split
  · next e rest =>
    split
    · next he =>
      have hsign : isSpace e = false := by
        simp only [Bool.or_eq_true, beq_iff_eq] at he
        rcases he with rfl | rfl <;> decide
      -- The sign may be missing, so the digits are counted from behind it.
      have key : ∀ sign, VisibleUpTo sign rest →
          VisibleUpTo (digits isDigit (rest.drop sign) + sign + 1) (e :: rest) := by
        intro sign hvisible
        have hdigits := visibleUpTo_digits (p := isDigit) (fun c => not_isSpace_of_isDigit)
          (rest.drop sign)
        have := (hvisible.add hdigits).cons hsign
        rwa [Nat.add_comm sign] at this
      dsimp only
      split
      · exact visibleUpTo_zero _
      · refine key _ ?_
        split
        · exact (visibleUpTo_zero _).cons (by decide)
        · exact (visibleUpTo_zero _).cons (by decide)
        · exact visibleUpTo_zero _
    · exact visibleUpTo_zero _
  · exact visibleUpTo_zero _

theorem visibleUpTo_based {p : Char → Bool} (hp : ∀ c, p c = true → isSpace c = false)
    {c d : Char} (hc : isSpace c = false) (hd : isSpace d = false) {rest : List Char} {n : Nat}
    (h : based p rest = some n) : VisibleUpTo n (c :: d :: rest) ∧ 0 < n := by
  unfold based at h
  have hdigits := visibleUpTo_digits hp rest
  cases hk : digits p rest with
  | zero => simp [hk] at h
  | succ k =>
    rw [hk] at h hdigits
    cases h
    split
    · next more hmore =>
      have hmark : VisibleUpTo 1 (rest.drop (k + 1)) := by
        rw [hmore]
        exact (visibleUpTo_zero more).cons (by decide)
      exact ⟨((hdigits.add hmark).cons hd).cons hc, by omega⟩
    · exact ⟨(hdigits.cons hd).cons hc, by omega⟩

theorem shows_number : number.Shows := by
  intro s n h
  -- Every part of a number is visible, so it is enough that there is one.
  have key : VisibleUpTo n s ∧ 0 < n := by
    unfold number at h
    have hdigits := visibleUpTo_digits (p := isDigit) (fun c => not_isSpace_of_isDigit)
    split at h
    · exact visibleUpTo_based (fun c => not_isSpace_of_isHexDigit) (by decide) (by decide) h
    · exact visibleUpTo_based (fun c => not_isSpace_of_isHexDigit) (by decide) (by decide) h
    · refine visibleUpTo_based (fun c hc => ?_) (by decide) (by decide) h
      simp only [Bool.and_eq_true, decide_eq_true_eq] at hc
      exact not_isSpace_of_between hc.1 hc.2 (by decide) (by decide)
    · refine visibleUpTo_based (fun c hc => ?_) (by decide) (by decide) h
      simp only [Bool.and_eq_true, decide_eq_true_eq] at hc
      exact not_isSpace_of_between hc.1 hc.2 (by decide) (by decide)
    · refine visibleUpTo_based (fun c hc => ?_) (by decide) (by decide) h
      simp only [Bool.or_eq_true, beq_iff_eq] at hc
      rcases hc with rfl | rfl <;> decide
    · refine visibleUpTo_based (fun c hc => ?_) (by decide) (by decide) h
      simp only [Bool.or_eq_true, beq_iff_eq] at hc
      rcases hc with rfl | rfl <;> decide
    · next d rest =>
      split at h
      · next hd =>
        cases h
        have hwhole := (hdigits rest).add (visibleUpTo_exponent _)
        have := (hwhole.cons (not_isSpace_of_isDigit hd)).cons (c := '.') (by decide)
        refine ⟨?_, by omega⟩
        rw [Nat.add_sub_cancel]
        exact (by omega : ∀ a b : Nat, a + b + 1 + 1 = a + 2 + b) _ _ ▸ this
      · cases h
    · next d rest _ _ _ _ _ _ _ =>
      split at h
      · next hd =>
        simp only [Nat.add_sub_cancel] at h
        have hd := not_isSpace_of_isDigit hd
        split at h
        · next more hmore =>
          cases h
          have hmark : VisibleUpTo 1 (rest.drop (digits isDigit rest)) := by
            rw [hmore]
            exact (visibleUpTo_zero more).cons (by decide)
          exact ⟨((hdigits rest).add hmark).cons hd, by omega⟩
        · next more hmore =>
          cases h
          have hfraction := ((hdigits more).add (visibleUpTo_exponent _)).cons
            (c := '.') (by decide)
          rw [← hmore] at hfraction
          have := ((hdigits rest).add hfraction).cons hd
          refine ⟨?_, by omega⟩
          exact (by omega : ∀ a b c : Nat, a + (b + c + 1) + 1 = a + 1 + 1 + b + c) _ _ _ ▸ this
        · cases h
          have := ((hdigits rest).add (visibleUpTo_exponent _)).cons hd
          refine ⟨?_, by omega⟩
          exact (by omega : ∀ a b : Nat, a + b + 1 = a + 1 + b) _ _ ▸ this
      · cases h
    · cases h
  refine key.1.endsVisibly key.2 ?_
  rintro rfl
  simp [number] at h

end ComponentDecl.Syntax
