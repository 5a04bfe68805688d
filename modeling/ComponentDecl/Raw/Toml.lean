import ComponentDecl.Raw.Number
import ComponentDecl.Raw.Value

/-! # TOML

    Reads a TOML text into a table.  The reader answers nothing for a text that
    is no TOML; the wording of such faults is not fixed here. -/

namespace ComponentDecl.Raw.Toml

/-- A step of the reader: a result and the text after it. -/
abbrev Result (α : Type) := Option (α × List Char)

/-! ## Characters -/

/-- White space inside a line. -/
def isSpace (c : Char) : Bool := c == ' ' || c == '\t'

/-- The text after white space inside the line. -/
def skipSpace (s : List Char) : List Char := s.dropWhile isSpace

/-- Control characters, which comments and strings may not hold. -/
def isControl (c : Char) : Bool := (c.toNat < 0x20 && c != '\t') || c.toNat == 0x7f

/-- The text after a comment, if there is one. -/
def skipComment : List Char → Option (List Char)
  | '#' :: rest =>
    let (comment, after) := (rest.takeWhile (· != '\n'), rest.dropWhile (· != '\n'))
    if comment.any isControl then none else some after
  | s => some s

/-- The text after white space, line breaks and comments. -/
def skipLines : List Char → List Char → Option (List Char)
  | [], s => some s
  | _ :: fuel, s =>
    match s.dropWhile fun c => isSpace c || c == '\n' with
    | '#' :: rest => (skipComment ('#' :: rest)).bind (skipLines fuel)
    | rest => some rest

/-- The text after a given mark. -/
def expect (mark : String) (s : List Char) : Option (List Char) :=
  if mark.toList.isPrefixOf s then some (s.drop mark.length) else none

/-- Holds of hexadecimal digits. -/
def isHexDigit (c : Char) : Bool :=
  c.isDigit || ('a' ≤ c && c ≤ 'f') || ('A' ≤ c && c ≤ 'F')

/-! ## Strings -/

/-- The character of a number of hexadecimal digits. -/
def codePoint? (count : Nat) (s : List Char) : Result Char :=
  let digits := s.take count
  let n := ofDigits 16 digits
  if digits.length = count && digits.all isHexDigit &&
      (n < 0xd800 || (0xdfff < n && n ≤ 0x10ffff)) then
    some (Char.ofNat n, s.drop count)
  else none

/-- The character that an escape after its backslash stands for. -/
def escaped? : List Char → Result Char
  | 'b' :: rest => some ('\x08', rest)
  | 't' :: rest => some ('\t', rest)
  | 'n' :: rest => some ('\n', rest)
  | 'f' :: rest => some ('\x0c', rest)
  | 'r' :: rest => some ('\r', rest)
  | '"' :: rest => some ('"', rest)
  | '\\' :: rest => some ('\\', rest)
  | 'u' :: rest => codePoint? 4 rest
  | 'U' :: rest => codePoint? 8 rest
  | _ => none

/-- A string on one line after its opening quote; `read` holds the characters so
    far in reverse order, and `fuel` a character for each step. -/
def lineString : List Char → List Char → List Char → Result String
  | _ :: _, read, '"' :: rest => some (String.ofList read.reverse, rest)
  | _ :: fuel, read, '\\' :: rest =>
    match escaped? rest with
    | none => none
    | some (c, rest) => lineString fuel (c :: read) rest
  | _ :: fuel, read, c :: rest =>
    if isControl c then none else lineString fuel (c :: read) rest
  | _, _, _ => none

/-- A literal string on one line after its opening quote. -/
def lineLiteral (s : List Char) : Result String :=
  let text := s.takeWhile fun c => c != '\'' && !isControl c
  match s.drop text.length with
  | '\'' :: rest => some (String.ofList text, rest)
  | _ => none

/-- The text after a line break that a backslash hides, with the blanks around
    it. -/
def skipHiddenBreak (s : List Char) : Option (List Char) :=
  match skipSpace s with
  | '\n' :: rest => some (rest.dropWhile fun c => isSpace c || c == '\n')
  | [] => some []
  | _ => none

/-- The quotes, at most two, that stand right before the closing ones. -/
def closingQuotes (quote : Char) : List Char → List Char × List Char
  | a :: b :: rest =>
    if a == quote && b == quote then ([a, b], rest)
    else if a == quote then ([a], b :: rest)
    else ([], a :: b :: rest)
  | [a] => if a == quote then ([a], []) else ([], [a])
  | [] => ([], [])

/-- A string over several lines after its opening quotes and the line break that
    may follow them. -/
def multilineString : List Char → List Char → List Char → Result String
  | _ :: _, read, '"' :: '"' :: '"' :: rest =>
    let (more, rest) := closingQuotes '"' rest
    some (String.ofList (read.reverse ++ more), rest)
  | _ :: fuel, read, '\\' :: rest =>
    match rest with
    | c :: _ =>
      if isSpace c || c == '\n' then
        match skipHiddenBreak rest with
        | none => none
        | some rest => multilineString fuel read rest
      else match escaped? rest with
        | none => none
        | some (c, rest) => multilineString fuel (c :: read) rest
    | [] => none
  | _ :: fuel, read, c :: rest =>
    if isControl c && c != '\n' then none else multilineString fuel (c :: read) rest
  | _, _, _ => none

/-- A literal string over several lines after its opening quotes. -/
def multilineLiteral : List Char → List Char → Result String
  | read, '\'' :: '\'' :: '\'' :: rest =>
    let (more, rest) := closingQuotes '\'' rest
    some (String.ofList (read.reverse ++ more), rest)
  | read, c :: rest =>
    if isControl c && c != '\n' then none else multilineLiteral (c :: read) rest
  | _, [] => none

/-- The text after one line break, if there is one. -/
def skipBreak : List Char → List Char
  | '\n' :: rest => rest
  | s => s

/-- A string in any of its four forms. -/
def string? : List Char → Result String
  | '"' :: '"' :: '"' :: rest => multilineString ('"' :: rest) [] (skipBreak rest)
  | '\'' :: '\'' :: '\'' :: rest => multilineLiteral [] (skipBreak rest)
  | '"' :: rest => lineString ('"' :: rest) [] rest
  | '\'' :: rest => lineLiteral rest
  | _ => none

/-! ## Keys -/

/-- Holds of the characters of a key without quotes. -/
def isKeyChar (c : Char) : Bool := c.isAlphanum || c == '-' || c == '_'

/-- One part of a key. -/
def keyPart? : List Char → Result String
  | '"' :: rest => lineString ('"' :: rest) [] rest
  | '\'' :: rest => lineLiteral rest
  | s =>
    match s.takeWhile isKeyChar with
    | [] => none
    | part => some (String.ofList part, s.drop part.length)

/-- The parts of a key after the first. -/
def keyRest : List Char → List Char → Result (List String)
  | [], s => some ([], s)
  | _ :: fuel, s =>
    match skipSpace s with
    | '.' :: rest =>
      match keyPart? (skipSpace rest) with
      | none => none
      | some (part, rest) => (keyRest fuel rest).map fun (parts, rest) => (part :: parts, rest)
    | rest => some ([], rest)

/-- A key of parts joined by points, and the text after it and the white space
    that follows. -/
def key? (s : List Char) : Result (List String) :=
  match keyPart? s with
  | none => none
  | some (part, rest) =>
    (keyRest ('.' :: rest) rest).map fun (parts, rest) => (part :: parts, skipSpace rest)

/-! ## Numbers and moments -/

/-- Digits of a class where single underscores may stand between two of them,
    without the underscores. -/
def joinedDigits (p : Char → Bool) : List Char → List Char × List Char
  | '_' :: d :: rest =>
    if p d then
      let (ds, after) := joinedDigits p rest
      (d :: ds, after)
    else ([], '_' :: d :: rest)
  | d :: rest =>
    if p d then
      let (ds, after) := joinedDigits p rest
      (d :: ds, after)
    else ([], d :: rest)
  | [] => ([], [])

/-- At least one digit of a class. -/
def digits? (p : Char → Bool) (s : List Char) : Result (List Char) :=
  match s with
  | d :: _ => if p d then some (joinedDigits p s) else none
  | [] => none

/-- A number in a base other than ten. -/
def basedNumber? : List Char → Result Raw
  | '0' :: 'x' :: rest => whole 16 isHexDigit rest
  | '0' :: 'o' :: rest => whole 8 (fun c => '0' ≤ c && c ≤ '7') rest
  | '0' :: 'b' :: rest => whole 2 (fun c => c == '0' || c == '1') rest
  | _ => none
where
  /-- The number of digits in a base. -/
  whole (base : Nat) (p : Char → Bool) (s : List Char) : Result Raw :=
    (digits? p s).map fun (ds, rest) => (.int (ofDigits base ds), rest)

/-- A sign and whether it is a minus. -/
def sign : List Char → Bool × List Char
  | '-' :: rest => (true, rest)
  | '+' :: rest => (false, rest)
  | s => (false, s)

/-- The exponent at the start of a text, if there is one. -/
def exponent? : List Char → Result Int
  | e :: rest =>
    if e == 'e' || e == 'E' then
      let (negative, rest) := sign rest
      (digits? Char.isDigit rest).map fun (ds, rest) => (signed negative (ofDigits 10 ds), rest)
    else none
  | [] => none

/-- A decimal number. -/
def decimal? (s : List Char) : Result Raw :=
  let (negative, body) := sign s
  let whole := match body with
    | '0' :: rest => some (['0'], rest)
    | _ => digits? Char.isDigit body
  match whole with
  | none => none
  | some (whole, rest) =>
    let (fraction, rest) := match rest with
      | '.' :: more => (digits? Char.isDigit more).getD ([], rest)
      | _ => ([], rest)
    match exponent? rest with
    | some (e, rest) => some (.float (floatOf negative whole fraction e), rest)
    | none =>
      if fraction.isEmpty then some (.int (signed negative (ofDigits 10 whole)), rest)
      else some (.float (floatOf negative whole fraction 0), rest)

/-- An infinite number, or none. -/
def special? (s : List Char) : Result Raw :=
  let (negative, body) := sign s
  let value (size : Float) : Raw := .float (if negative then -size else size)
  match body with
  | 'i' :: 'n' :: 'f' :: rest => some (value (1 / 0), rest)
  | 'n' :: 'a' :: 'n' :: rest => some (value (0 / 0), rest)
  | _ => none

/-- A fixed count of decimal digits within bounds. -/
def field? (count low high : Nat) (s : List Char) : Result Nat :=
  let digits := s.take count
  let n := ofDigits 10 digits
  if digits.length = count && digits.all Char.isDigit && low ≤ n && n ≤ high then
    some (n, s.drop count)
  else none

/-- A time of day. -/
def time? (s : List Char) : Option (List Char) := do
  let (_, s) ← field? 2 0 23 s
  let s ← expect ":" s
  let (_, s) ← field? 2 0 59 s
  let s ← expect ":" s
  let (_, s) ← field? 2 0 59 s
  match s with
  | '.' :: d :: rest => if d.isDigit then return rest.dropWhile Char.isDigit else return s
  | _ => return s

/-- The number of days of a month. -/
def daysIn (year month : Nat) : Nat :=
  if month = 2 then
    if year % 4 = 0 && (year % 100 ≠ 0 || year % 400 = 0) then 29 else 28
  else if [4, 6, 9, 11].contains month then 30
  else 31

/-- The text after the distance of a local time from the universal one, if it is
    given. -/
def skipOffset (s : List Char) : List Char :=
  match s with
  | 'Z' :: rest | 'z' :: rest => rest
  | '+' :: rest | '-' :: rest =>
    let after : Option (List Char) := do
      let (_, t) ← field? 2 0 23 rest
      let t ← expect ":" t
      let (_, t) ← field? 2 0 59 t
      return t
    after.getD s
  | _ => s

/-- A date with an optional time; nothing where no date is written, and an inner
    nothing where the date does not exist. -/
def date? (s : List Char) : Option (Result Raw) := do
  let (year, s) ← field? 4 0 9999 s
  let s ← expect "-" s
  let (month, s) ← field? 2 1 12 s
  let s ← expect "-" s
  let (day, s) ← field? 2 1 31 s
  if year = 0 || daysIn year month < day then return none
  match s with
  | c :: rest =>
    if c == 'T' || c == 't' || c == ' ' then
      match time? rest with
      | some after => return some (.moment, skipOffset after)
      | none => return some (.moment, s)
    else return some (.moment, s)
  | [] => return some (.moment, s)

/-- A date, a time or a number. -/
def measure? (s : List Char) : Result Raw :=
  match date? s with
  | some result => result
  | none =>
    match time? s with
    | some rest => some (.moment, rest)
    | none => ((basedNumber? s).or (decimal? s)).or (special? s)

/-! ## Tables -/

/-- Changes the table at a path, making the tables on the way.  At a list the
    path goes on in its last table.  Nothing where something else stands in the
    way. -/
def updateAt (throughLists : Bool) (change : List (String × Raw) → Option (List (String × Raw))) :
    List String → List (String × Raw) → Option (List (String × Raw))
  | [], entries => change entries
  | name :: path, entries =>
    let inner (value : Raw) : Option Raw :=
      match value with
      | .table es => (updateAt throughLists change path es).map .table
      | .list values =>
        match throughLists, values.getLast? with
        | true, some (.table es) =>
          (updateAt throughLists change path es).map fun es => .list (values.dropLast ++ [.table es])
        | _, _ => none
      | _ => none
    (inner ((lookup? entries name).getD (.table []))).map (put entries name)

/-- Gives a new name a value in a table. -/
def define (name : String) (value : Raw) (entries : List (String × Raw)) :
    Option (List (String × Raw)) :=
  match lookup? entries name with
  | some _ => none
  | none => some (put entries name value)

/-- Adds a table to the list of a name. -/
def appendTable (name : String) (entries : List (String × Raw)) :
    Option (List (String × Raw)) :=
  match lookup? entries name with
  | none => some (put entries name (.list [.table []]))
  | some (.list values) => some (put entries name (.list (values ++ [.table []])))
  | some _ => none

/-- Holds of lists and tables. -/
def isContainer : Raw → Bool
  | .list _ | .table _ => true
  | _ => false

/-- Splits a key into its way and its last part. -/
def wayAndLast (key : List String) : List String × String :=
  (key.dropLast, key.getLastD "")

/-- A key, an equals sign and a value read by `value`. -/
def pair? (value : List Char → Result Raw) (s : List Char) :
    Option ((List String × Raw) × List Char) := do
  let (key, s) ← key? s
  let s ← expect "=" s
  let (v, s) ← value (skipSpace s)
  return ((key, v), s)

/-- The elements of an array up to its closing bracket. -/
def elements (value : List Char → Result Raw) :
    List Char → List Char → Option (List Raw × List Char)
  | [], _ => none
  | _ :: fuel, s => do
    let s ← skipLines s s
    match s with
    | ']' :: rest => return ([], rest)
    | s =>
      let (v, s) ← value s
      let s ← skipLines s s
      match s with
      | ',' :: rest =>
        let (vs, s) ← elements value fuel rest
        return (v :: vs, s)
      | ']' :: rest => return ([v], rest)
      | _ => none

/-- The pairs of an inline table up to its closing brace.  `closed` holds the
    keys whose values may not be extended. -/
def inlinePairs (value : List Char → Result Raw) :
    List Char → List (List String) → List (String × Raw) → List Char →
    Option (List (String × Raw) × List Char)
  | [], _, _, _ => none
  | _ :: fuel, closed, entries, s => do
    let ((key, v), s) ← pair? value s
    if closed.any (·.isPrefixOf key) then none
    let (way, last) := wayAndLast key
    let entries ← updateAt false (define last v) way entries
    match skipSpace s with
    | '\x7d' :: rest => return (entries, rest)
    | ',' :: rest =>
      let closed := if isContainer v then key :: closed else closed
      inlinePairs value fuel closed entries (skipSpace rest)
    | _ => none

/-- A value in which arrays and inline tables are nested at most `depth`
    deep. -/
def value? : Nat → List Char → Result Raw
  | 0, _ => none
  | depth + 1, s =>
    match s with
    | '"' :: _ | '\'' :: _ => (string? s).map fun (t, rest) => (.text t, rest)
    | '[' :: rest => (elements (value? depth) s rest).map fun (vs, rest) => (.list vs, rest)
    | '\x7b' :: rest =>
      match skipSpace rest with
      | '\x7d' :: rest => some (.table [], rest)
      | rest => (inlinePairs (value? depth) s [] [] rest).map fun (es, rest) => (.table es, rest)
    | 't' :: 'r' :: 'u' :: 'e' :: rest => some (.bool true, rest)
    | 'f' :: 'a' :: 'l' :: 's' :: 'e' :: rest => some (.bool false, rest)
    | _ => measure? s

/-! ## Documents -/

/-- A document read so far: its table, the table that pairs go to, and the keys
    that may not be opened or extended any more. -/
structure Document where
  entries : List (String × Raw)
  header : List String
  /-- Keys of tables that were opened by a header or a dotted key. -/
  opened : List (List String)
  /-- Keys that count as opened from the next header on. -/
  pending : List (List String)
  /-- Keys of values that are complete, with all below them. -/
  closed : List (List String)

namespace Document

/-- The document before its first line. -/
def empty : Document := ⟨[], [], [], [], []⟩

/-- Holds of a key that is complete or lies below one that is. -/
def isClosed (d : Document) (key : List String) : Bool :=
  d.closed.any (·.isPrefixOf key)

/-- Adds a pair to the current table. -/
def addPair (d : Document) (key : List String) (v : Raw) : Option Document := do
  let (way, last) := wayAndLast key
  let between := (List.range way.length).map fun i => d.header ++ key.take (i + 1)
  if between.any d.opened.contains then none
  if d.isClosed (d.header ++ way) && !(d.header ++ way).isEmpty then none
  let entries ← updateAt true (define last v) (d.header ++ way) d.entries
  let closed := if isContainer v then (d.header ++ key) :: d.closed else d.closed
  return { d with entries := entries, closed := closed, pending := between ++ d.pending }

/-- Makes the pending keys opened ones. -/
def settle (d : Document) : Document :=
  { d with opened := d.pending ++ d.opened, pending := [] }

/-- Opens a table. -/
def openTable (d : Document) (key : List String) : Option Document := do
  if d.opened.contains key || d.isClosed key then none
  let entries ← updateAt true some key d.entries
  return { d with entries := entries, header := key, opened := key :: d.opened }

/-- Opens the next table of a list. -/
def openListTable (d : Document) (key : List String) : Option Document := do
  if d.isClosed key then none
  let (way, last) := wayAndLast key
  let entries ← updateAt true (appendTable last) way d.entries
  let isOutside (k : List String) : Bool := !key.isPrefixOf k
  return ⟨entries, key, key :: d.opened.filter isOutside, d.pending, d.closed.filter isOutside⟩

/-- Reads one statement, or nothing on an empty line. -/
def statement (depth : Nat) (d : Document) (s : List Char) : Option (Document × List Char) :=
  match s with
  | [] | '\n' :: _ | '#' :: _ => some (d, s)
  | '[' :: '[' :: rest => do
    let (key, s) ← key? (skipSpace rest)
    let d ← d.settle.openListTable key
    let s ← expect "]]" s
    return (d, s)
  | '[' :: rest => do
    let (key, s) ← key? (skipSpace rest)
    let d ← d.settle.openTable key
    let s ← expect "]" s
    return (d, s)
  | s => do
    let ((key, v), s) ← pair? (value? depth) s
    let d ← d.addPair key v
    return (d, s)

/-- Reads all lines. -/
def lines (depth : Nat) : List Char → Document → List Char → Option Document
  | [], _, _ => none
  | _ :: fuel, d, s => do
    let (d, s) ← statement depth d (skipSpace s)
    let s ← skipComment (skipSpace s)
    match s with
    | [] => return d
    | '\n' :: rest => lines depth fuel d rest
    | _ => none

end Document

/-- The text with line feeds in place of pairs of carriage return and line
    feed. -/
def joinBreaks : List Char → List Char
  | '\r' :: '\n' :: rest => '\n' :: joinBreaks rest
  | c :: rest => c :: joinBreaks rest
  | [] => []

/-- The entries of a TOML document. -/
def read? (s : String) : Option (List (String × Raw)) :=
  let text := joinBreaks s.toList
  (Document.lines (text.length + 1) ('\n' :: text) .empty text).map (·.entries)

end ComponentDecl.Raw.Toml
