/-! # Lines of a text

    A line ends at a line feed, a carriage return (the pair of both counts
    once), a vertical tab, a form feed, one of the three ASCII separators for
    files, groups and records, the next-line control, or one of the two Unicode
    separators for lines and paragraphs.  A break at the very end of a text
    opens no further line. -/

namespace ComponentDecl.Text

/-- Characters at which a line ends. -/
def isLineBreak (c : Char) : Bool :=
  let n := c.toNat
  (0x0a ≤ n && n ≤ 0x0d) || (0x1c ≤ n && n ≤ 0x1e) || n == 0x85 ||
  n == 0x2028 || n == 0x2029

/-- The lines of a list of characters, where `line` holds the characters of the
    current line in reverse order. -/
def linesFrom (line : List Char) : List Char → List (List Char)
  | [] => if line.isEmpty then [] else [line.reverse]
  | '\r' :: '\n' :: rest => line.reverse :: linesFrom [] rest
  | c :: rest =>
    if isLineBreak c then line.reverse :: linesFrom [] rest
    else linesFrom (c :: line) rest

/-- The lines of a text, without the characters that end them. -/
def lines (s : String) : List String :=
  (linesFrom [] s.toList).map String.ofList

/-- The carriage return, alone or before a line feed, becomes a line feed. -/
def unifyLineFeeds : List Char → List Char
  | [] => []
  | '\r' :: '\n' :: rest => '\n' :: unifyLineFeeds rest
  | c :: rest => (if c = '\r' then '\n' else c) :: unifyLineFeeds rest

/-- A text joined from lines. -/
def joinLines (ls : List String) : String :=
  "\n".intercalate ls

end ComponentDecl.Text
