/-! # Blank characters

    Which characters count as white space around a text, and what is left of a
    text once they are cut off.  Two sets are in use: the Unicode one for texts
    and the six ASCII bytes for raw module bytes. -/

namespace ComponentDecl.Text

/-! ## Texts -/

/-- The characters that Unicode gives the bidirectional class of white space or
    a separator, together with the four ASCII information separators. -/
def isBlank (c : Char) : Bool :=
  let n := c.toNat
  (0x09 ≤ n && n ≤ 0x0d) || (0x1c ≤ n && n ≤ 0x20) || n == 0x85 || n == 0xa0 ||
  n == 0x1680 || (0x2000 ≤ n && n ≤ 0x200a) || n == 0x2028 || n == 0x2029 ||
  n == 0x202f || n == 0x205f || n == 0x3000

/-- A list without the elements of a class at its end. -/
def dropEndWhile {α : Type} (p : α → Bool) (xs : List α) : List α :=
  (xs.reverse.dropWhile p).reverse

/-- A list without the elements of a class at either end. -/
def trimWhile {α : Type} (p : α → Bool) (xs : List α) : List α :=
  dropEndWhile p (xs.dropWhile p)

/-- A text without the blank characters around it. -/
def strip (s : String) : String :=
  String.ofList (trimWhile isBlank s.toList)

/-- A text without the blank characters at its end. -/
def stripEnd (s : String) : String :=
  String.ofList (dropEndWhile isBlank s.toList)

/-- A text without the line feeds around it. -/
def stripLineFeeds (s : String) : String :=
  String.ofList (trimWhile (· == '\n') s.toList)

/-! ## Raw bytes -/

/-- The bytes that count as white space in a module's source: tab, line feed,
    vertical tab, form feed, carriage return and space. -/
def isBlankByte (b : UInt8) : Bool :=
  (0x09 ≤ b && b ≤ 0x0d) || b == 0x20

/-- Holds of a stretch of source without any visible byte. -/
def allBlank (bytes : List UInt8) : Bool :=
  bytes.all isBlankByte

end ComponentDecl.Text
