import ComponentDecl.Proofs.Text.Encoding
import ComponentDecl.Module.Edit
import Mathlib.Data.List.Induction
import Mathlib.Logic.Basic

/-! # Line edges in bytes and in characters

    Removing a statement looks at single bytes, the grammar at characters.  The
    two views agree: an ASCII byte of an encoded text is an ASCII character of
    it, so what is cut off at the edges of a line is white space in both.
-/

namespace ComponentDecl

namespace Text

/-! ### ASCII characters -/

/-- A character is encoded as itself, or by bytes none of which is ASCII. -/
theorem utf8EncodeChar_cases (c : Char) :
    (c.toNat < 0x80 ∧ String.utf8EncodeChar c = [UInt8.ofNat c.toNat]) ∨
    (0x80 ≤ c.toNat ∧ String.utf8EncodeChar c ≠ [] ∧
      ∀ b ∈ String.utf8EncodeChar c, 0x80 ≤ b.toNat) := by
  unfold String.utf8EncodeChar
  simp only [Char.toNat_val]
  generalize c.toNat = n
  split
  · next h => exact Or.inl ⟨by omega, rfl⟩
  · next h =>
    refine Or.inr ⟨by omega, ?_⟩
    split
    · refine ⟨by simp, fun b hb => ?_⟩
      simp only [List.mem_cons, List.not_mem_nil, or_false] at hb
      rcases hb with rfl | rfl <;> rw [toNat_ofNat_of_lt] <;> omega
    · split
      · refine ⟨by simp, fun b hb => ?_⟩
        simp only [List.mem_cons, List.not_mem_nil, or_false] at hb
        rcases hb with rfl | rfl | rfl <;> rw [toNat_ofNat_of_lt] <;> omega
      · refine ⟨by simp, fun b hb => ?_⟩
        simp only [List.mem_cons, List.not_mem_nil, or_false] at hb
        rcases hb with rfl | rfl | rfl | rfl <;> rw [toNat_ofNat_of_lt] <;> omega

/-- A class of bytes and the class of characters that it amounts to. -/
structure Matches (p : UInt8 → Bool) (q : Char → Bool) : Prop where
  ascii : ∀ c : Char, c.toNat < 0x80 → p (UInt8.ofNat c.toNat) = q c
  /-- Beyond ASCII the classes are constant. -/
  other : ∃ v, (∀ b : UInt8, 0x80 ≤ b.toNat → p b = v) ∧ ∀ c : Char, 0x80 ≤ c.toNat → q c = v

theorem Matches.not {p : UInt8 → Bool} {q : Char → Bool} (h : Matches p q) :
    Matches (fun b => !p b) (fun c => !q c) := by
  obtain ⟨v, hp, hq⟩ := h.other
  exact ⟨fun c hc => by rw [h.ascii c hc], !v, fun b hb => by rw [hp b hb],
    fun c hc => by rw [hq c hc]⟩

theorem Matches.utf8EncodeChar {p : UInt8 → Bool} {q : Char → Bool} (h : Matches p q)
    (c : Char) :
    String.utf8EncodeChar c ≠ [] ∧ ∀ b ∈ String.utf8EncodeChar c, p b = q c := by
  rcases utf8EncodeChar_cases c with ⟨hc, hbytes⟩ | ⟨hc, hne, hbytes⟩
  · rw [hbytes]
    refine ⟨by simp, fun b hb => ?_⟩
    rw [List.mem_singleton.mp hb]
    exact h.ascii c hc
  · obtain ⟨v, hp, hq⟩ := h.other
    exact ⟨hne, fun b hb => by rw [hp b (hbytes b hb), hq c hc]⟩

theorem Matches.all {p : UInt8 → Bool} {q : Char → Bool} (h : Matches p q) (cs : List Char) :
    (encodeChars cs).all p = cs.all q := by
  induction cs with
  | nil => rfl
  | cons c cs ih =>
    obtain ⟨hne, hbytes⟩ := h.utf8EncodeChar c
    have hfirst : (String.utf8EncodeChar c).all p = q c := by
      cases hc : q c with
      | true => exact List.all_eq_true.mpr fun b hb => (hbytes b hb).trans hc
      | false =>
        obtain ⟨b, hb⟩ := List.exists_mem_of_ne_nil _ hne
        exact List.all_eq_false.mpr ⟨b, hb, by simp [hbytes b hb, hc]⟩
    rw [encodeChars_cons, List.all_append, List.all_cons, ih, hfirst]

theorem Matches.takeWhile {p : UInt8 → Bool} {q : Char → Bool} (h : Matches p q)
    (cs : List Char) : (encodeChars cs).takeWhile p = encodeChars (cs.takeWhile q) := by
  induction cs with
  | nil => rfl
  | cons c cs ih =>
    obtain ⟨hne, hbytes⟩ := h.utf8EncodeChar c
    rw [encodeChars_cons]
    cases hc : q c with
    | true =>
      rw [List.takeWhile_append_of_pos fun b hb => (hbytes b hb).trans hc, ih,
        List.takeWhile_cons_of_pos hc, encodeChars_cons]
    | false =>
      rw [List.takeWhile_cons_of_neg (by simp [hc])]
      obtain ⟨b, bs, hbs⟩ := List.exists_cons_of_ne_nil hne
      rw [hbs, List.cons_append, List.takeWhile_cons_of_neg]
      · rfl
      · rw [hbytes b (by simp [hbs]), hc]
        simp

/-- The same holds from the back, where the bytes of a character stand in
    reverse order. -/
theorem Matches.takeWhile_reverse {p : UInt8 → Bool} {q : Char → Bool} (h : Matches p q)
    (cs : List Char) :
    (encodeChars cs).reverse.takeWhile p = (encodeChars (cs.reverse.takeWhile q).reverse).reverse := by
  induction cs using List.reverseRecOn with
  | nil => rfl
  | append_singleton cs c ih =>
    obtain ⟨hne, hbytes⟩ := h.utf8EncodeChar c
    have hone : encodeChars [c] = String.utf8EncodeChar c := by simp
    rw [encodeChars_append, List.reverse_append, List.reverse_append, hone]
    simp only [List.reverse_cons, List.reverse_nil, List.nil_append, List.singleton_append]
    cases hc : q c with
    | true =>
      rw [List.takeWhile_append_of_pos fun b hb => (hbytes b (List.mem_reverse.mp hb)).trans hc,
        ih, List.takeWhile_cons_of_pos hc, List.reverse_cons, encodeChars_append,
        List.reverse_append, hone]
    | false =>
      rw [List.takeWhile_cons_of_neg (by simp [hc])]
      obtain ⟨b, bs, hbs⟩ := List.exists_cons_of_ne_nil (List.reverse_ne_nil_iff.mpr hne)
      rw [hbs, List.cons_append, List.takeWhile_cons_of_neg]
      · rfl
      · rw [hbytes b (List.mem_reverse.mp (by simp [hbs])), hc]
        simp

theorem toNat_ne_of_ne {c d : Char} (h : c ≠ d) : c.toNat ≠ d.toNat := by
  intro heq
  apply h
  rw [← Char.ofNat_toNat c, ← Char.ofNat_toNat d, heq]

theorem matches_char (d : Char) (hd : d.toNat < 0x80) :
    Matches (· == UInt8.ofNat d.toNat) (· == d) := by
  have hd' : (UInt8.ofNat d.toNat).toNat = d.toNat := toNat_ofNat_of_lt (by omega)
  refine ⟨fun c hc => ?_, false, fun b hb => ?_, fun c hc => ?_⟩
  · by_cases h : c = d
    · simp [h]
    · have hc' : (UInt8.ofNat c.toNat).toNat = c.toNat := toNat_ofNat_of_lt (by omega)
      have hne : UInt8.ofNat c.toNat ≠ UInt8.ofNat d.toNat := by
        intro heq
        exact toNat_ne_of_ne h (by rw [← hc', ← hd', heq])
      rw [beq_eq_false_iff_ne.mpr hne, beq_eq_false_iff_ne.mpr h]
  · refine beq_eq_false_iff_ne.mpr ?_
    rintro rfl
    omega
  · refine beq_eq_false_iff_ne.mpr ?_
    rintro rfl
    omega

/-- Characters whose only byte counts as white space. -/
def isBlankAscii (c : Char) : Bool :=
  (0x09 ≤ c.toNat && c.toNat ≤ 0x0d) || c.toNat == 0x20

theorem matches_blank : Matches isBlankByte isBlankAscii := by
  refine ⟨fun c hc => ?_, false, fun b hb => ?_, fun c hc => ?_⟩
  · have hc' : (UInt8.ofNat c.toNat).toNat = c.toNat := toNat_ofNat_of_lt (by omega)
    rw [Bool.eq_iff_iff]
    simp only [isBlankByte, isBlankAscii, Bool.or_eq_true, Bool.and_eq_true, decide_eq_true_eq,
      UInt8.le_iff_toNat_le, beq_iff_eq, ← UInt8.toNat_inj, hc']
    simp
  · rw [← Bool.not_eq_true]
    simp only [isBlankByte, Bool.or_eq_true, Bool.and_eq_true, decide_eq_true_eq,
      UInt8.le_iff_toNat_le, beq_iff_eq, ← UInt8.toNat_inj]
    simp
    omega
  · rw [← Bool.not_eq_true]
    simp only [isBlankAscii, Bool.or_eq_true, Bool.and_eq_true, decide_eq_true_eq, beq_iff_eq]
    omega

theorem allBlank_encodeChars (cs : List Char) :
    allBlank (encodeChars cs) = cs.all isBlankAscii :=
  matches_blank.all cs

/-- An encoded text that starts with an ASCII byte starts with its character. -/
theorem exists_of_encodeChars_cons {cs : List Char} {b : UInt8} {bytes : List UInt8}
    (h : encodeChars cs = b :: bytes) (hb : b.toNat < 0x80) :
    ∃ rest, cs = Char.ofNat b.toNat :: rest ∧ encodeChars rest = bytes := by
  cases cs with
  | nil => cases h
  | cons c cs =>
    rw [encodeChars_cons] at h
    rcases utf8EncodeChar_cases c with ⟨hc, hbytes⟩ | ⟨-, hne, hbytes⟩
    · rw [hbytes, List.singleton_append, List.cons.injEq] at h
      refine ⟨cs, ?_, h.2⟩
      rw [← h.1, toNat_ofNat_of_lt (by omega), Char.ofNat_toNat]
    · obtain ⟨d, ds, hds⟩ := List.exists_cons_of_ne_nil hne
      rw [hds, List.cons_append, List.cons.injEq] at h
      have := hbytes d (by simp [hds])
      rw [h.1] at this
      omega

theorem count_encodeChars (cs : List Char) : (encodeChars cs).count 0x0a = cs.count '\n' := by
  induction cs with
  | nil => rfl
  | cons c cs ih =>
    have hmatch := matches_char '\n' (by decide)
    rw [encodeChars_cons, List.count_append, ih, List.count_cons]
    rcases utf8EncodeChar_cases c with ⟨hc, hbytes⟩ | ⟨hc, hne, hbytes⟩
    · have := hmatch.ascii c hc
      rw [hbytes, List.count_singleton]
      simp only [Char.reduceToNat] at this
      rw [show (UInt8.ofNat c.toNat == 0x0a) = (c == '\n') from this]
      omega
    · have hzero : (String.utf8EncodeChar c).count 0x0a = 0 := by
        refine List.count_eq_zero.mpr fun h => ?_
        have := hbytes _ h
        simp at this
      have hne : (c == '\n') = false := by
        refine beq_eq_false_iff_ne.mpr ?_
        rintro rfl
        exact absurd hc (by decide)
      simp [hzero, hne]

/-! ### The edges of a line -/

/-- The number of bytes of characters. -/
def size (cs : List Char) : Nat := (encodeChars cs).length

@[simp] theorem size_nil : size [] = 0 := rfl

@[simp] theorem size_append (cs ds : List Char) : size (cs ++ ds) = size cs + size ds := by
  simp [size]

/-- The characters of the last line. -/
def lastLine (cs : List Char) : List Char :=
  (cs.reverse.takeWhile (· != '\n')).reverse

/-- Spaces and tabs, and one line break after them. -/
def lineRest (cs : List Char) : List Char :=
  let spaces := cs.takeWhile fun c => c == ' ' || c == '\t'
  match cs.drop spaces.length with
  | '\r' :: '\n' :: _ => spaces ++ ['\r', '\n']
  | '\n' :: _ => spaces ++ ['\n']
  | _ => spaces

end Text

open Text

theorem lineStartIfBlank_eq {source : List UInt8} {before : List Char}
    (h : source.take (size before) = encodeChars before) :
    lineStartIfBlank source (size before) =
      if (lastLine before).all isBlankAscii then size before - size (lastLine before)
      else size before := by
  have hindent : (source.take (size before)).reverse.takeWhile (· != 0x0a) =
      (encodeChars (lastLine before)).reverse := by
    rw [h]
    exact (matches_char '\n' (by decide)).not.takeWhile_reverse before
  have hblank : allBlank (encodeChars (lastLine before)).reverse =
      (lastLine before).all isBlankAscii := by
    rw [← allBlank_encodeChars, allBlank, allBlank, List.all_reverse]
  simp only [lineStartIfBlank, hindent, hblank, List.length_reverse]
  rfl

theorem matches_spaceOrTab :
    Matches (fun b => b == 0x20 || b == 0x09) (fun c => c == ' ' || c == '\t') := by
  have hspace := matches_char ' ' (by decide)
  have htab := matches_char '\t' (by decide)
  obtain ⟨v, hv, hv'⟩ := hspace.other
  obtain ⟨w, hw, hw'⟩ := htab.other
  refine ⟨fun c hc => ?_, v || w, fun b hb => ?_, fun c hc => ?_⟩
  · exact congrArg₂ _ (hspace.ascii c hc) (htab.ascii c hc)
  · exact congrArg₂ _ (hv b hb) (hw b hb)
  · exact congrArg₂ _ (hv' c hc) (hw' c hc)

theorem exists_of_encodeChars_feed {cs : List Char} {bytes : List UInt8}
    (h : encodeChars cs = 0x0a :: bytes) : ∃ more, cs = '\n' :: more := by
  obtain ⟨more, hmore, -⟩ := exists_of_encodeChars_cons h (by decide)
  exact ⟨more, hmore⟩

theorem exists_of_encodeChars_return_feed {cs : List Char} {bytes : List UInt8}
    (h : encodeChars cs = 0x0d :: 0x0a :: bytes) : ∃ more, cs = '\r' :: '\n' :: more := by
  obtain ⟨rest, rfl, hrest⟩ := exists_of_encodeChars_cons h (by decide)
  obtain ⟨more, rfl⟩ := exists_of_encodeChars_feed hrest
  exact ⟨more, rfl⟩

theorem lineRestEnd_eq {source : List UInt8} {stop : Nat} {after : List Char}
    (h : source.drop stop = encodeChars after) :
    lineRestEnd source stop = stop + size (lineRest after) := by
  have hspaces : ((source.drop stop).takeWhile fun b => b == 0x20 || b == 0x09) =
      encodeChars (after.takeWhile fun c => c == ' ' || c == '\t') := by
    rw [h]
    exact matches_spaceOrTab.takeWhile after
  generalize hs : (after.takeWhile fun c => c == ' ' || c == '\t') = spaces at hspaces
  obtain ⟨rest, hafter⟩ : ∃ rest, after = spaces ++ rest := by
    obtain ⟨rest, hrest⟩ := List.takeWhile_prefix (l := after) (fun c => c == ' ' || c == '\t')
    exact ⟨rest, by rw [← hs, hrest]⟩
  have hdrop : (source.drop stop).drop (encodeChars spaces).length = encodeChars rest := by
    rw [h, hafter, encodeChars_append, List.drop_left]
  have hdrop' : after.drop spaces.length = rest := by
    rw [hafter, List.drop_left]
  simp only [lineRestEnd, hspaces, hdrop, lineRest, hs, hdrop']
  -- The bytes of a line break are characters of their own, so both functions split alike.
  split
  · next bytes hbytes =>
    obtain ⟨more, rfl⟩ := exists_of_encodeChars_return_feed hbytes
    simp [size, Nat.add_assoc]
    rfl
  · next bytes hbytes =>
    obtain ⟨more, rfl⟩ := exists_of_encodeChars_feed hbytes
    simp [size, Nat.add_assoc]
    rfl
  · next hnotPair hnotFeed =>
    split
    · exact absurd rfl (hnotPair _)
    · exact absurd rfl (hnotFeed _)
    · rfl

end ComponentDecl
