import ComponentDecl.Text.Utf8
import ComponentDecl.Text.Blank

/-! # Encoding and decoding

    Decoding is the inverse of encoding, in both directions: the bytes of a text
    read back as that text, and bytes that read as a text are that text's bytes.
    So the source of a readable module and its characters determine each other.

    Key theorems:
    - `decodeChars_encodeChars`: every text survives the way through bytes
    - `encodeChars_of_decodeChars`: every readable source survives the way
      through characters
-/

namespace ComponentDecl.Text

/-! ### Encoding piece by piece -/

@[simp] theorem encodeChars_nil : encodeChars [] = [] := rfl

@[simp] theorem encodeChars_cons (c : Char) (cs : List Char) :
    encodeChars (c :: cs) = String.utf8EncodeChar c ++ encodeChars cs := rfl

@[simp] theorem encodeChars_append (as bs : List Char) :
    encodeChars (as ++ bs) = encodeChars as ++ encodeChars bs := by
  simp [encodeChars]

/-! ### Single characters -/

/-- One byte that may continue a character is read. -/
theorem continueChar_succ {b : UInt8} {low high : UInt8} (run : List UInt8) (bits n : Nat)
    (rest : List UInt8) (hlow : low.toNat ≤ b.toNat) (hhigh : b.toNat ≤ high.toNat) :
    continueChar run bits (n + 1) low high (b :: rest) =
      continueChar (b :: run) (bits * 64 + (b.toNat - 0x80)) n 0x80 0xbf rest := by
  have h : (low ≤ b && b ≤ high) = true := by
    simp [UInt8.le_iff_toNat_le, hlow, hhigh]
  simp [continueChar, h]

/-- A character that goes on does so with a byte of the announced range. -/
theorem exists_of_continueChar_succ {run : List UInt8} {bits n : Nat} {low high : UInt8}
    {bytes rest : List UInt8} {v : Nat}
    (h : continueChar run bits (n + 1) low high bytes = .ok (v, rest)) :
    ∃ b more, bytes = b :: more ∧ low.toNat ≤ b.toNat ∧ b.toNat ≤ high.toNat ∧
      continueChar (b :: run) (bits * 64 + (b.toNat - 0x80)) n 0x80 0xbf more = .ok (v, rest) := by
  cases bytes with
  | nil => simp [continueChar] at h
  | cons b more =>
    rw [continueChar] at h
    split at h
    · next hb =>
      simp only [Bool.and_eq_true, decide_eq_true_eq, UInt8.le_iff_toNat_le] at hb
      exact ⟨b, more, rfl, hb.1, hb.2, h⟩
    · cases h

theorem toNat_bounds (c : Char) :
    c.toNat < 0xd800 ∨ 0xdfff < c.toNat ∧ c.toNat < 0x110000 := c.valid

theorem toNat_ofNat_of_lt {n : Nat} (h : n < 256) : (UInt8.ofNat n).toNat = n := by
  simp; omega

/-- The character of a number in the range of characters. -/
theorem toNat_charOfNat {n : Nat} (h : n < 0xd800 ∨ 0xdfff < n ∧ n < 0x110000) :
    (Char.ofNat n).toNat = n := by
  have : n.isValidChar := h
  rw [Char.ofNat, dif_pos this]
  rfl

/-- Six bits of a number as a byte that continues a character. -/
theorem toNat_tail (k : Nat) : (UInt8.ofNat (k % 0x40 + 0x80)).toNat = k % 0x40 + 0x80 :=
  toNat_ofNat_of_lt (by omega)

/-- Behind the first two bytes every byte that continues a character is read. -/
theorem continueChar_tail (run : List UInt8) (bits n k : Nat) (rest : List UInt8) :
    continueChar run bits (n + 1) 0x80 0xbf (UInt8.ofNat (k % 0x40 + 0x80) :: rest) =
      continueChar (UInt8.ofNat (k % 0x40 + 0x80) :: run) (bits * 64 + k % 0x40) n 0x80 0xbf
        rest := by
  have hlow : (0x80 : UInt8).toNat ≤ (UInt8.ofNat (k % 0x40 + 0x80)).toNat := by
    rw [toNat_tail]
    exact Nat.le_add_left _ _
  have hhigh : (UInt8.ofNat (k % 0x40 + 0x80)).toNat ≤ (0xbf : UInt8).toNat := by
    rw [toNat_tail]
    show k % 0x40 + 0x80 ≤ 0xbf
    omega
  rw [continueChar_succ _ _ _ _ hlow hhigh, toNat_tail, Nat.add_sub_cancel]

theorem lead?_two {n : Nat} (hlow : 0x80 ≤ n) (hhigh : n < 0x800) :
    lead? (UInt8.ofNat (n / 64 % 0x20 + 0xc0)) = some ⟨1, 0x80, 0xbf, n / 64⟩ := by
  have hb : (UInt8.ofNat (n / 64 % 0x20 + 0xc0)).toNat = n / 64 + 0xc0 := by
    rw [toNat_ofNat_of_lt] <;> omega
  simp only [lead?, hb]
  rw [if_neg (by omega), if_neg (by omega), if_pos (by omega), Nat.add_sub_cancel]

theorem lead?_three {n : Nat} (hhigh : n < 0x10000) :
    lead? (UInt8.ofNat (n / 4096 % 0x10 + 0xe0)) = some ⟨2,
      if n / 4096 + 0xe0 = 0xe0 then 0xa0 else 0x80,
      if n / 4096 + 0xe0 = 0xed then 0x9f else 0xbf, n / 4096⟩ := by
  have hb : (UInt8.ofNat (n / 4096 % 0x10 + 0xe0)).toNat = n / 4096 + 0xe0 := by
    rw [toNat_ofNat_of_lt] <;> omega
  simp only [lead?, hb]
  rw [if_neg (by omega), if_neg (by omega), if_neg (by omega), if_pos (by omega),
    Nat.add_sub_cancel]

theorem lead?_four {n : Nat} (hhigh : n < 0x110000) :
    lead? (UInt8.ofNat (n / 262144 % 0x08 + 0xf0)) = some ⟨3,
      if n / 262144 + 0xf0 = 0xf0 then 0x90 else 0x80,
      if n / 262144 + 0xf0 = 0xf4 then 0x8f else 0xbf, n / 262144⟩ := by
  have hb : (UInt8.ofNat (n / 262144 % 0x08 + 0xf0)).toNat = n / 262144 + 0xf0 := by
    rw [toNat_ofNat_of_lt] <;> omega
  simp only [lead?, hb]
  rw [if_neg (by omega), if_neg (by omega), if_neg (by omega), if_neg (by omega),
    if_pos (by omega), Nat.add_sub_cancel]

/-- The bytes of a character are read back.  The cases are the four lengths that
    the encoding of a character can have. -/
theorem decodeFrom_utf8EncodeChar (fuel position : Nat) (c : Char) (rest : List UInt8) :
    decodeFrom (fuel + 1) position (String.utf8EncodeChar c ++ rest) =
      (decodeFrom fuel (position + c.utf8Size) rest).map (c :: ·) := by
  have hc := toNat_bounds c
  have back : Char.ofNat c.toNat = c := Char.ofNat_toNat c
  have hsize : c.utf8Size = (String.utf8EncodeChar c).length := by simp
  rw [hsize]
  unfold String.utf8EncodeChar
  simp only [Char.toNat_val]
  generalize hn : c.toNat = n at *
  split
  · have hb : (UInt8.ofNat n).toNat = n := toNat_ofNat_of_lt (by omega)
    have hl : lead? (UInt8.ofNat n) = some ⟨0, 0x80, 0xbf, n⟩ := by
      simp only [lead?, hb]
      rw [if_pos (by omega)]
    simp [decodeFrom, hl, continueChar, back]
  split
  · have hv : n / 64 * 64 + n % 0x40 = n := by omega
    simp only [List.cons_append, List.nil_append, decodeFrom,
      lead?_two (by omega : 0x80 ≤ n) (by omega)]
    rw [continueChar_tail]
    simp only [continueChar, hv, back]
    rfl
  split
  · have hv : (n / 4096 * 64 + n / 64 % 0x40) * 64 + n % 0x40 = n := by omega
    -- The first byte narrows the range of the second, past the surrogates too.
    have hlow : (if n / 4096 + 0xe0 = 0xe0 then 0xa0 else 0x80 : UInt8).toNat ≤
        (UInt8.ofNat (n / 64 % 0x40 + 0x80)).toNat := by
      rw [toNat_tail]
      split
      · simp
        omega
      · simp
    have hhigh : (UInt8.ofNat (n / 64 % 0x40 + 0x80)).toNat ≤
        (if n / 4096 + 0xe0 = 0xed then 0x9f else 0xbf : UInt8).toNat := by
      rw [toNat_tail]
      split <;> simp <;> omega
    simp only [List.cons_append, List.nil_append, decodeFrom, lead?_three (by omega : n < 0x10000)]
    rw [continueChar_succ _ _ _ _ hlow hhigh, toNat_tail, Nat.add_sub_cancel, continueChar_tail]
    simp only [continueChar, hv, back]
    rfl
  · have hv : ((n / 262144 * 64 + n / 4096 % 0x40) * 64 + n / 64 % 0x40) * 64 + n % 0x40 = n := by
      omega
    have hlow : (if n / 262144 + 0xf0 = 0xf0 then 0x90 else 0x80 : UInt8).toNat ≤
        (UInt8.ofNat (n / 4096 % 0x40 + 0x80)).toNat := by
      rw [toNat_tail]
      split
      · simp
        omega
      · simp
    have hhigh : (UInt8.ofNat (n / 4096 % 0x40 + 0x80)).toNat ≤
        (if n / 262144 + 0xf0 = 0xf4 then 0x8f else 0xbf : UInt8).toNat := by
      rw [toNat_tail]
      split <;> simp <;> omega
    simp only [List.cons_append, List.nil_append, decodeFrom, lead?_four (by omega : n < 0x110000)]
    rw [continueChar_succ _ _ _ _ hlow hhigh, toNat_tail, Nat.add_sub_cancel, continueChar_tail,
      continueChar_tail]
    simp only [continueChar, hv, back]
    rfl

/-! ### The bytes of a value -/

theorem utf8EncodeChar_two {b b₁ : UInt8} (hb : 0xc2 ≤ b.toNat ∧ b.toNat < 0xe0)
    (hb₁ : 0x80 ≤ b₁.toNat ∧ b₁.toNat ≤ 0xbf) :
    String.utf8EncodeChar (Char.ofNat ((b.toNat - 0xc0) * 64 + (b₁.toNat - 0x80))) = [b, b₁] := by
  have back : UInt8.ofNat b.toNat = b := by simp
  have back₁ : UInt8.ofNat b₁.toNat = b₁ := by simp
  generalize b.toNat = n at *
  generalize b₁.toNat = n₁ at *
  generalize hv : (n - 0xc0) * 64 + (n₁ - 0x80) = v
  have hn : (Char.ofNat v).toNat = v := toNat_charOfNat (by omega)
  simp only [String.utf8EncodeChar, Char.toNat_val, hn]
  rw [if_neg (by omega), if_pos (by omega), show v / 64 % 0x20 + 0xc0 = n by omega,
    show v % 0x40 + 0x80 = n₁ by omega, back, back₁]

theorem utf8EncodeChar_three {b b₁ b₂ : UInt8} (hb : 0xe0 ≤ b.toNat ∧ b.toNat < 0xf0)
    (hb₁ : 0x80 ≤ b₁.toNat ∧ b₁.toNat ≤ 0xbf) (hlong : b.toNat = 0xe0 → 0xa0 ≤ b₁.toNat)
    (hsurrogate : b.toNat = 0xed → b₁.toNat ≤ 0x9f) (hb₂ : 0x80 ≤ b₂.toNat ∧ b₂.toNat ≤ 0xbf) :
    String.utf8EncodeChar (Char.ofNat
      (((b.toNat - 0xe0) * 64 + (b₁.toNat - 0x80)) * 64 + (b₂.toNat - 0x80))) = [b, b₁, b₂] := by
  have back : UInt8.ofNat b.toNat = b := by simp
  have back₁ : UInt8.ofNat b₁.toNat = b₁ := by simp
  have back₂ : UInt8.ofNat b₂.toNat = b₂ := by simp
  generalize b.toNat = n at *
  generalize b₁.toNat = n₁ at *
  generalize b₂.toNat = n₂ at *
  generalize hv : ((n - 0xe0) * 64 + (n₁ - 0x80)) * 64 + (n₂ - 0x80) = v
  have hn : (Char.ofNat v).toNat = v := toNat_charOfNat (by omega)
  simp only [String.utf8EncodeChar, Char.toNat_val, hn]
  rw [if_neg (by omega), if_neg (by omega), if_pos (by omega),
    show v / 4096 % 0x10 + 0xe0 = n by omega, show v / 64 % 0x40 + 0x80 = n₁ by omega,
    show v % 0x40 + 0x80 = n₂ by omega, back, back₁, back₂]

theorem utf8EncodeChar_four {b b₁ b₂ b₃ : UInt8} (hb : 0xf0 ≤ b.toNat ∧ b.toNat < 0xf5)
    (hb₁ : 0x80 ≤ b₁.toNat ∧ b₁.toNat ≤ 0xbf) (hlong : b.toNat = 0xf0 → 0x90 ≤ b₁.toNat)
    (hlast : b.toNat = 0xf4 → b₁.toNat ≤ 0x8f) (hb₂ : 0x80 ≤ b₂.toNat ∧ b₂.toNat ≤ 0xbf)
    (hb₃ : 0x80 ≤ b₃.toNat ∧ b₃.toNat ≤ 0xbf) :
    String.utf8EncodeChar (Char.ofNat
      ((((b.toNat - 0xf0) * 64 + (b₁.toNat - 0x80)) * 64 + (b₂.toNat - 0x80)) * 64 +
        (b₃.toNat - 0x80))) = [b, b₁, b₂, b₃] := by
  have back : UInt8.ofNat b.toNat = b := by simp
  have back₁ : UInt8.ofNat b₁.toNat = b₁ := by simp
  have back₂ : UInt8.ofNat b₂.toNat = b₂ := by simp
  have back₃ : UInt8.ofNat b₃.toNat = b₃ := by simp
  generalize b.toNat = n at *
  generalize b₁.toNat = n₁ at *
  generalize b₂.toNat = n₂ at *
  generalize b₃.toNat = n₃ at *
  generalize hv : (((n - 0xf0) * 64 + (n₁ - 0x80)) * 64 + (n₂ - 0x80)) * 64 + (n₃ - 0x80) = v
  have hn : (Char.ofNat v).toNat = v := toNat_charOfNat (by omega)
  simp only [String.utf8EncodeChar, Char.toNat_val, hn]
  rw [if_neg (by omega), if_neg (by omega), if_neg (by omega),
    show v / 262144 % 0x08 + 0xf0 = n by omega, show v / 4096 % 0x40 + 0x80 = n₁ by omega,
    show v / 64 % 0x40 + 0x80 = n₂ by omega, show v % 0x40 + 0x80 = n₃ by omega,
    back, back₁, back₂, back₃]

/-- A range of which one end is moved after one first byte. -/
theorem bounds_of_range {n : Nat} {p q : Prop} [Decidable p] [Decidable q] {low high : UInt8}
    (hlow : (if p then low else 0x80 : UInt8).toNat ≤ n)
    (hhigh : n ≤ (if q then high else 0xbf : UInt8).toNat) (hwide : 0x80 ≤ low.toNat)
    (hwide' : high.toNat ≤ 0xbf) :
    (0x80 ≤ n ∧ n ≤ 0xbf) ∧ (p → low.toNat ≤ n) ∧ (q → n ≤ high.toNat) := by
  refine ⟨⟨?_, ?_⟩, fun h => by simpa [h] using hlow, fun h => by simpa [h] using hhigh⟩
  · split at hlow
    · exact Nat.le_trans hwide hlow
    · exact hlow
  · split at hhigh
    · exact Nat.le_trans hhigh hwide'
    · exact hhigh

/-- What is read as a character is that character's bytes.  The cases are those
    of the first byte; its range and the range it announces for the next one keep
    the value out of the surrogates and the overlong forms. -/
theorem utf8EncodeChar_of_continueChar {b : UInt8} {rest rest' : List UInt8} {l : Lead} {n : Nat}
    (hl : lead? b = some l)
    (h : continueChar [b] l.bits l.following l.low l.high rest = .ok (n, rest')) :
    b :: rest = String.utf8EncodeChar (Char.ofNat n) ++ rest' := by
  simp only [lead?] at hl
  split at hl
  · next hone =>
    cases hl
    simp only [continueChar, Except.ok.injEq, Prod.mk.injEq] at h
    obtain ⟨rfl, rfl⟩ := h
    have hn : (Char.ofNat b.toNat).toNat = b.toNat := toNat_charOfNat (by omega)
    simp only [String.utf8EncodeChar, Char.toNat_val, hn]
    rw [if_pos (by omega)]
    simp
  split at hl
  · cases hl
  split at hl
  · cases hl
    obtain ⟨b₁, more, rfl, hlow, hhigh, h⟩ := exists_of_continueChar_succ h
    simp only [continueChar, Except.ok.injEq, Prod.mk.injEq] at h
    obtain ⟨rfl, rfl⟩ := h
    rw [utf8EncodeChar_two (by omega) ⟨hlow, hhigh⟩]
    rfl
  split at hl
  · cases hl
    obtain ⟨b₁, more, rfl, hlow, hhigh, h⟩ := exists_of_continueChar_succ h
    obtain ⟨b₂, more, rfl, hlow₂, hhigh₂, h⟩ := exists_of_continueChar_succ h
    simp only [continueChar, Except.ok.injEq, Prod.mk.injEq] at h
    obtain ⟨rfl, rfl⟩ := h
    obtain ⟨hb₁, hlong, hsurrogate⟩ := bounds_of_range hlow hhigh (by decide) (by decide)
    rw [utf8EncodeChar_three (by omega) hb₁ hlong hsurrogate ⟨hlow₂, hhigh₂⟩]
    rfl
  split at hl
  · cases hl
    obtain ⟨b₁, more, rfl, hlow, hhigh, h⟩ := exists_of_continueChar_succ h
    obtain ⟨b₂, more, rfl, hlow₂, hhigh₂, h⟩ := exists_of_continueChar_succ h
    obtain ⟨b₃, more, rfl, hlow₃, hhigh₃, h⟩ := exists_of_continueChar_succ h
    simp only [continueChar, Except.ok.injEq, Prod.mk.injEq] at h
    obtain ⟨rfl, rfl⟩ := h
    obtain ⟨hb₁, hlong, hlast⟩ := bounds_of_range hlow hhigh (by decide) (by decide)
    rw [utf8EncodeChar_four (by omega) hb₁ hlong hlast ⟨hlow₂, hhigh₂⟩ ⟨hlow₃, hhigh₃⟩]
    rfl
  · cases hl

/-! ### Whole texts -/

theorem decodeFrom_encodeChars (cs : List Char) :
    ∀ fuel position, (encodeChars cs).length ≤ fuel →
      decodeFrom fuel position (encodeChars cs) = .ok cs := by
  induction cs with
  | nil =>
    intro fuel position _
    cases fuel <;> simp [decodeFrom]
  | cons c cs ih =>
    intro fuel position h
    rw [encodeChars_cons, List.length_append, String.length_utf8EncodeChar] at h
    have hpos := c.utf8Size_pos
    obtain ⟨fuel, rfl⟩ : ∃ n, fuel = n + 1 := ⟨fuel - 1, by omega⟩
    rw [encodeChars_cons, decodeFrom_utf8EncodeChar, ih _ _ (by omega)]
    rfl

/-- A text is read back from its bytes. -/
theorem decodeChars_encodeChars (cs : List Char) : decodeChars (encodeChars cs) = .ok cs :=
  decodeFrom_encodeChars cs _ _ (Nat.le_refl _)

theorem encodeChars_of_decodeFrom {fuel position : Nat} {bytes : List UInt8} {cs : List Char}
    (hfuel : bytes.length ≤ fuel) (h : decodeFrom fuel position bytes = .ok cs) :
    encodeChars cs = bytes := by
  induction fuel generalizing position bytes cs with
  | zero =>
    obtain rfl : bytes = [] := by simpa using hfuel
    simp only [decodeFrom, Except.ok.injEq] at h
    subst h
    rfl
  | succ fuel ih =>
    cases bytes with
    | nil =>
      simp only [decodeFrom, Except.ok.injEq] at h
      subst h
      rfl
    | cons b rest =>
      rw [decodeFrom] at h
      cases hl : lead? b with
      | none => simp [hl] at h
      | some l =>
        simp only [hl] at h
        cases hn : continueChar [b] l.bits l.following l.low l.high rest with
        | error e => simp [hn] at h
        | ok r =>
          obtain ⟨n, rest'⟩ := r
          simp only [hn] at h
          have hc := utf8EncodeChar_of_continueChar hl hn
          cases hr : decodeFrom fuel (position + 1 + l.following) rest' with
          | error e => simp [hr, Except.map] at h
          | ok cs' =>
            simp only [hr, Except.map, Except.ok.injEq] at h
            subst h
            -- A character takes a byte at least, so the fuel is enough for the rest.
            have hlen : rest'.length ≤ fuel := by
              have hsize := String.length_utf8EncodeChar (Char.ofNat n)
              have hpos := (Char.ofNat n).utf8Size_pos
              have := congrArg List.length hc
              simp only [List.length_cons, List.length_append] at this hfuel
              omega
            rw [encodeChars_cons, ih hlen hr, hc]

/-- Bytes that decode are the bytes of the text that they decode to. -/
theorem encodeChars_of_decodeChars {bytes : List UInt8} {cs : List Char}
    (h : decodeChars bytes = .ok cs) : encodeChars cs = bytes :=
  encodeChars_of_decodeFrom (Nat.le_refl _) h

end ComponentDecl.Text
