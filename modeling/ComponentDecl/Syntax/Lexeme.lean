/-! # Lexemes

    How far a lexeme reaches from the start of a text.  Each recogniser answers
    the number of characters of the longest lexeme of its class, or nothing when
    the text does not start with one. -/

namespace ComponentDecl.Syntax

/-- A class of lexemes: the length of the one a text starts with, if any. -/
abbrev Lexeme := List Char → Option Nat

namespace Lexeme

/-! ## Character classes -/

/-- White space between tokens. -/
def isSpace (c : Char) : Bool :=
  let n := c.toNat
  (0x09 ≤ n && n ≤ 0x0d) || n == 0x20 || n == 0xa0 || n == 0x1680 ||
  (0x2000 ≤ n && n ≤ 0x200b) || n == 0x2028 || n == 0x2029 || n == 0x202f ||
  n == 0x205f || n == 0x2060 || n == 0x3000 || n == 0xfeff

/-- White space that may stand before an omitted semicolon.  The blanks that
    forbid a line break and the invisible ones are not among it. -/
def isBreakingSpace (c : Char) : Bool :=
  let n := c.toNat
  (0x09 ≤ n && n ≤ 0x0d) || n == 0x20 || n == 0x1680 ||
  (0x2000 ≤ n && n ≤ 0x2006) || (0x2008 ≤ n && n ≤ 0x200a) || n == 0x2028 ||
  n == 0x2029 || n == 0x205f || n == 0x3000

/-- Characters that end a line comment. -/
def isLineEnd (c : Char) : Bool :=
  c == '\n' || c == '\r' || c.toNat == 0x2028 || c.toNat == 0x2029

/-- Decimal digits. -/
def isDigit (c : Char) : Bool :=
  '0' ≤ c && c ≤ '9'

/-- Hexadecimal digits. -/
def isHexDigit (c : Char) : Bool :=
  isDigit c || ('a' ≤ c && c ≤ 'f') || ('A' ≤ c && c ≤ 'F')

/-- ASCII punctuation that no name contains. -/
def punctuation : List Char :=
  ":;\x60\"'@#.,|^&<=>+-*/\\%?!~()[]\x7b\x7d".toList

/-- Characters of which names consist: everything but control characters, white
    space and punctuation. -/
def isNameChar (c : Char) : Bool :=
  c.isAlphanum || (0x20 < c.toNat && !isSpace c && !punctuation.contains c)

/-! ## Names -/

/-- The length of an escaped character in a name, the backslash included. -/
def nameEscape : Lexeme
  | '\\' :: 'u' :: '\x7b' :: rest =>
    let digits := (rest.takeWhile isHexDigit).length
    match rest.drop digits with
    | '\x7d' :: _ => if digits = 0 then none else some (digits + 4)
    | _ => none
  | '\\' :: 'u' :: a :: b :: c :: d :: _ =>
    if [a, b, c, d].all isHexDigit then some 6 else none
  | _ => none

/-- The number of name characters at the start of a text; an escape counts with
    all its characters. -/
def nameChars : Nat → List Char → Nat
  | 0, _ => 0
  | _ + 1, [] => 0
  | fuel + 1, c :: rest =>
    if isNameChar c then nameChars fuel rest + 1
    else match nameEscape (c :: rest) with
      | some n => nameChars fuel (rest.drop (n - 1)) + n
      | none => 0

/-- A name or a keyword: name characters that do not start with a digit. -/
def word : Lexeme := fun s =>
  match s with
  | [] => none
  | c :: _ =>
    if isDigit c then none
    else match nameChars s.length s with
      | 0 => none
      | n => some n

/-- A private name: a number sign before a word. -/
def privateName : Lexeme
  | '#' :: rest => (word rest).map (· + 1)
  | _ => none

/-- The words that name nothing. -/
def reserved : List (List Char) :=
  ["break", "case", "catch", "class", "const", "continue", "debugger", "default", "delete",
   "do", "else", "enum", "export", "extends", "false", "finally", "for", "function", "if",
   "import", "in", "instanceof", "new", "null", "return", "super", "switch", "this", "throw",
   "true", "try", "typeof", "var", "void", "while", "with"].map String.toList

/-- A word that may name something. -/
def name : Lexeme := fun s =>
  (word s).filter fun n => !reserved.contains (s.take n)

/-- Holds where a word goes on. -/
def wordGoesOn : List Char → Bool
  | [] => false
  | c :: rest => isNameChar c || (nameEscape (c :: rest)).isSome

/-- One given word and no longer one. -/
def exactWord (w : List Char) : Lexeme := fun s =>
  if w.isPrefixOf s && !wordGoesOn (s.drop w.length) then some w.length else none

/-- Given characters, whatever follows them. -/
def exactly (m : List Char) : Lexeme := fun s =>
  if m.isPrefixOf s then some m.length else none

/-- Given characters unless one of some continuations follows them. -/
def exactlyUnless (m : List Char) (continuations : List (List Char)) : Lexeme := fun s =>
  if m.isPrefixOf s && !continuations.any (·.isPrefixOf (s.drop m.length)) then some m.length
  else none

/-! ## White space and comments -/

/-- A non-empty stretch of white space. -/
def space : Lexeme := fun s =>
  match (s.takeWhile isSpace).length with
  | 0 => none
  | n => some n

/-- The length of a block comment's rest, its end mark included. -/
def blockCommentRest : Lexeme
  | '*' :: '/' :: _ => some 2
  | _ :: rest => (blockCommentRest rest).map (· + 1)
  | [] => none

/-- A comment: two slashes and the rest of the line, or all between a slash with
    an asterisk and the next asterisk with a slash. -/
def comment : Lexeme
  | '/' :: '/' :: rest => some ((rest.takeWhile (!isLineEnd ·)).length + 2)
  | '/' :: '*' :: rest => (blockCommentRest rest).map (· + 2)
  | _ => none

/-- The line that names an interpreter at the start of a file. -/
def hashBang : Lexeme
  | '#' :: '!' :: rest => some ((rest.takeWhile (!isLineEnd ·)).length + 2)
  | _ => none

/-! ## Numbers -/

/-- The length of digits of a class at the start of a text, where single
    underscores may stand between two digits. -/
def digits (p : Char → Bool) : List Char → Nat
  | '_' :: d :: rest => if p d then digits p rest + 2 else 0
  | d :: rest => if p d then digits p rest + 1 else 0
  | [] => 0

/-- The length of a decimal exponent, or zero. -/
def exponent (s : List Char) : Nat :=
  match s with
  | e :: rest =>
    if e == 'e' || e == 'E' then
      let sign := match rest with
        | '+' :: _ => 1
        | '-' :: _ => 1
        | _ => 0
      match digits isDigit (rest.drop sign) with
      | 0 => 0
      | n => n + sign + 1
    else 0
  | [] => 0

/-- Digits of a base after its mark, with an optional mark of a large integer. -/
def based (p : Char → Bool) (rest : List Char) : Option Nat :=
  match digits p rest with
  | 0 => none
  | n => some (match rest.drop n with
    | 'n' :: _ => n + 3
    | _ => n + 2)

/-- A number: decimal with fraction and exponent, or hexadecimal, octal or
    binary. -/
def number : Lexeme
  | '0' :: 'x' :: rest | '0' :: 'X' :: rest => based isHexDigit rest
  | '0' :: 'o' :: rest | '0' :: 'O' :: rest => based (fun c => '0' ≤ c && c ≤ '7') rest
  | '0' :: 'b' :: rest | '0' :: 'B' :: rest => based (fun c => c == '0' || c == '1') rest
  | '.' :: d :: rest =>
    if isDigit d then
      let n := digits isDigit rest + 2
      some (n + exponent (rest.drop (n - 2)))
    else none
  | d :: rest =>
    if isDigit d then
      let n := digits isDigit rest + 1
      match rest.drop (n - 1) with
      | 'n' :: _ => some (n + 1)
      | '.' :: more =>
        let f := digits isDigit more
        some (n + 1 + f + exponent (more.drop f))
      | more => some (n + exponent more)
    else none
  | [] => none

/-! ## Inside quoted texts -/

/-- A backslash with the character it escapes. -/
def escape : Lexeme
  | '\\' :: 'u' :: '\x7b' :: rest =>
    let n := (rest.takeWhile isHexDigit).length
    match rest.drop n with
    | '\x7d' :: _ => if n = 0 then none else some (n + 4)
    | _ => none
  | '\\' :: 'u' :: a :: b :: c :: d :: _ =>
    if [a, b, c, d].all isHexDigit then some 6 else none
  | '\\' :: 'x' :: a :: b :: _ => if isHexDigit a && isHexDigit b then some 4 else none
  | '\\' :: '\r' :: '\n' :: _ => some 3
  | '\\' :: 'u' :: _ | '\\' :: 'x' :: _ => none
  | '\\' :: c :: rest =>
    if '0' ≤ c && c ≤ '7' then
      some (((c :: rest).take 3).takeWhile (fun d => '0' ≤ d && d ≤ '7')).length.succ
    else some 2
  | _ => none

/-- Plain characters of a string in a given quote. -/
def stringChars (quote : Char) : Lexeme := fun s =>
  match (s.takeWhile fun c => c != quote && c != '\\' && c != '\n' && c != '\r').length with
  | 0 => none
  | n => some n

/-- The number of plain characters of a template. -/
def templateCharsLength : List Char → Nat
  | '$' :: '\x7b' :: _ => 0
  | c :: rest =>
    if c == '\x60' || c == '\\' || c.toNat == 0 then 0 else templateCharsLength rest + 1
  | [] => 0

/-- Plain characters of a template. -/
def templateChars : Lexeme := fun s =>
  match templateCharsLength s with
  | 0 => none
  | n => some n

/-- The length of a regular expression's pattern, where `inClass` tells whether
    the text stands inside a bracketed class. -/
def regexPatternLength : Bool → List Char → Option Nat
  | inClass, '\\' :: c :: rest =>
    if isLineEnd c then none else (regexPatternLength inClass rest).map (· + 2)
  | inClass, c :: rest =>
    if isLineEnd c then none
    else if c == '/' && !inClass then some 0
    else if c == '[' then (regexPatternLength true rest).map (· + 1)
    else if c == ']' then (regexPatternLength false rest).map (· + 1)
    else (regexPatternLength inClass rest).map (· + 1)
  | _, [] => none

/-- The pattern of a regular expression, up to its closing slash. -/
def regexPattern : Lexeme := fun s =>
  match s with
  | '*' :: _ | '/' :: _ => none
  | _ => regexPatternLength false s

/-- The flags after a regular expression. -/
def regexFlags : Lexeme := fun s =>
  match (s.takeWhile fun c => 'a' ≤ c && c ≤ 'z').length with
  | 0 => none
  | n => some n

end Lexeme

end ComponentDecl.Syntax
