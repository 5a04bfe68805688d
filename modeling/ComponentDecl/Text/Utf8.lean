/-! # Texts as UTF-8 bytes

    Encoding of characters and strict decoding, with the place and the reason of
    the first fault.  A fault covers the longest run of bytes that begins some
    well-formed character. -/

namespace ComponentDecl.Text

/-- The bytes of a list of characters. -/
def encodeChars (cs : List Char) : List UInt8 :=
  cs.flatMap String.utf8EncodeChar

/-- The bytes of a text. -/
def encode (s : String) : List UInt8 :=
  encodeChars s.toList

/-- Why a run of bytes begins no character. -/
inductive DecodeReason where
  /-- No character starts with this byte. -/
  | startByte
  /-- The byte after the run does not continue the character. -/
  | continuation
  /-- The bytes end inside a character. -/
  | truncated
  deriving DecidableEq, Repr

/-- The wording of a reason. -/
def DecodeReason.message : DecodeReason → String
  | .startByte => "invalid start byte"
  | .continuation => "invalid continuation byte"
  | .truncated => "unexpected end of data"

/-- The first fault of a sequence of bytes: where its run starts, its bytes and
    the reason. -/
structure DecodeError where
  position : Nat
  run : List UInt8
  reason : DecodeReason
  deriving DecidableEq, Repr

/-- The two lower-case hexadecimal digits of a byte. -/
def hexByte (b : UInt8) : String :=
  let digit (n : Nat) : Char := (Nat.toDigits 16 n).headD '0'
  String.ofList [digit (b.toNat / 16), digit (b.toNat % 16)]

/-- The report of a fault; a run of one byte shows that byte, a longer one its
    first and last position. -/
def DecodeError.message (e : DecodeError) : String :=
  let place := match e.run with
    | [b] => s!"byte 0x{hexByte b} in position {e.position}"
    | run => s!"bytes in position {e.position}-{e.position + run.length - 1}"
  s!"'utf-8' codec can't decode {place}: {e.reason.message}"

/-- What the first byte of a character announces: how many bytes follow it, the
    range of the first of them, and the value bits of the first byte itself. -/
structure Lead where
  following : Nat
  low : UInt8
  high : UInt8
  bits : Nat

/-- The announcement of a first byte, if it can start a character. -/
def lead? (b : UInt8) : Option Lead :=
  let n := b.toNat
  if n < 0x80 then some ⟨0, 0x80, 0xbf, n⟩
  else if n < 0xc2 then none
  else if n < 0xe0 then some ⟨1, 0x80, 0xbf, n - 0xc0⟩
  else if n < 0xf0 then
    some ⟨2, if n = 0xe0 then 0xa0 else 0x80, if n = 0xed then 0x9f else 0xbf, n - 0xe0⟩
  else if n < 0xf5 then
    some ⟨3, if n = 0xf0 then 0x90 else 0x80, if n = 0xf4 then 0x8f else 0xbf, n - 0xf0⟩
  else none

/-- Reads the bytes that continue a character.  `run` holds the bytes read so
    far in reverse order and `bits` their value; the answer is the value with
    the bytes left, or the run and the reason of the fault. -/
def continueChar (run : List UInt8) (bits : Nat) :
    Nat → UInt8 → UInt8 → List UInt8 → Except (List UInt8 × DecodeReason) (Nat × List UInt8)
  | 0, _, _, rest => .ok (bits, rest)
  | _ + 1, _, _, [] => .error (run.reverse, .truncated)
  | n + 1, low, high, b :: rest =>
    if low ≤ b && b ≤ high then
      continueChar (b :: run) (bits * 64 + (b.toNat - 0x80)) n 0x80 0xbf rest
    else .error (run.reverse, .continuation)

/-- Decodes at most `fuel` characters from bytes that start at `position`. -/
def decodeFrom : Nat → Nat → List UInt8 → Except DecodeError (List Char)
  | _, _, [] => .ok []
  | 0, _, _ :: _ => .ok []
  | fuel + 1, position, b :: rest =>
    match lead? b with
    | none => .error ⟨position, [b], .startByte⟩
    | some l =>
      match continueChar [b] l.bits l.following l.low l.high rest with
      | .error (run, reason) => .error ⟨position, run, reason⟩
      | .ok (n, rest') =>
        (decodeFrom fuel (position + 1 + l.following) rest').map (Char.ofNat n :: ·)

/-- The characters that bytes encode, or their first fault. -/
def decodeChars (bytes : List UInt8) : Except DecodeError (List Char) :=
  decodeFrom bytes.length 0 bytes

/-- The text that bytes encode, or their first fault. -/
def decode (bytes : List UInt8) : Except DecodeError String :=
  (decodeChars bytes).map String.ofList

end ComponentDecl.Text
