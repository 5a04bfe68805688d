import ComponentDecl.Raw.Number
import ComponentDecl.Raw.Value

/-! # JSON

    Reads a JSON text into a raw value.  Besides the standard, the words for
    numbers that are none or infinite are accepted.  A name given twice in an
    object has its last value.  The reader answers nothing for a text that is no
    JSON; the wording of such faults is not fixed here. -/

namespace ComponentDecl.Raw.Json

/-! ## Tokens -/

/-- The text after white space. -/
def skipSpace (s : List Char) : List Char :=
  s.dropWhile fun c => c == ' ' || c == '\t' || c == '\n' || c == '\r'

/-- The text after a given mark. -/
def expect (mark : List Char) (s : List Char) : Option (List Char) :=
  if mark.isPrefixOf s then some (s.drop mark.length) else none

/-- Holds of hexadecimal digits. -/
def isHexDigit (c : Char) : Bool :=
  ('0' ≤ c && c ≤ '9') || ('a' ≤ c && c ≤ 'f') || ('A' ≤ c && c ≤ 'F')

/-- The unit that four hexadecimal digits stand for, and the text after them. -/
def hexUnit? : List Char → Option (Nat × List Char)
  | a :: b :: c :: d :: rest =>
    if [a, b, c, d].all isHexDigit then some (ofDigits 16 [a, b, c, d], rest) else none
  | _ => none

/-- The character that an escape after its backslash stands for, and the text
    after it.  Two escaped halves make one character; a single half makes
    none. -/
def escaped? : List Char → Option (Char × List Char)
  | '"' :: rest => some ('"', rest)
  | '\\' :: rest => some ('\\', rest)
  | '/' :: rest => some ('/', rest)
  | 'b' :: rest => some ('\x08', rest)
  | 'f' :: rest => some ('\x0c', rest)
  | 'n' :: rest => some ('\n', rest)
  | 'r' :: rest => some ('\r', rest)
  | 't' :: rest => some ('\t', rest)
  | 'u' :: rest =>
    match hexUnit? rest with
    | none => none
    | some (high, rest) =>
      if high < 0xd800 || 0xdfff < high then some (Char.ofNat high, rest)
      else if 0xdbff < high then none
      else match expect "\\u".toList rest |>.bind hexUnit? with
        | some (low, rest) =>
          if 0xdc00 ≤ low && low ≤ 0xdfff then
            some (Char.ofNat (0x10000 + (high - 0xd800) * 0x400 + (low - 0xdc00)), rest)
          else none
        | none => none
  | _ => none

/-- The characters of a string after its opening quote, and the text after its
    closing one.  `read` holds the characters so far in reverse order. -/
def stringRest : Nat → List Char → List Char → Option (String × List Char)
  | 0, _, _ => none
  | _ + 1, _, [] => none
  | _ + 1, read, '"' :: rest => some (String.ofList read.reverse, rest)
  | fuel + 1, read, '\\' :: rest =>
    match escaped? rest with
    | none => none
    | some (c, rest) => stringRest fuel (c :: read) rest
  | fuel + 1, read, c :: rest => if c.toNat < 0x20 then none else stringRest fuel (c :: read) rest

/-- A string and the text after it. -/
def string? : List Char → Option (String × List Char)
  | '"' :: rest => stringRest (rest.length + 1) [] rest
  | _ => none

/-- Decimal digits at the start of a text, and the text after them. -/
def digits (s : List Char) : List Char × List Char :=
  (s.takeWhile Char.isDigit, s.dropWhile Char.isDigit)

/-- The exponent at the start of a text, if there is one. -/
def exponent? (s : List Char) : Option (Int × List Char) :=
  match s with
  | e :: rest =>
    if e == 'e' || e == 'E' then
      let (negative, rest) := match rest with
        | '-' :: rest => (true, rest)
        | '+' :: rest => (false, rest)
        | rest => (false, rest)
      let (ds, rest) := digits rest
      if ds.isEmpty then none else some (signed negative (ofDigits 10 ds), rest)
    else none
  | [] => none

/-- A number without its sign, and the text after it. -/
def unsignedNumber? (negative : Bool) (s : List Char) : Option (Raw × List Char) :=
  let (whole, rest) := digits s
  if whole.isEmpty || (whole.head? == some '0' && whole.length ≠ 1) then none
  else
    let (fraction, rest) := match rest with
      | '.' :: more =>
        let (ds, after) := digits more
        if ds.isEmpty then ([], rest) else (ds, after)
      | _ => ([], rest)
    match exponent? rest with
    | some (e, rest) => some (.float (floatOf negative whole fraction e), rest)
    | none =>
      if fraction.isEmpty then some (.int (signed negative (ofDigits 10 whole)), rest)
      else some (.float (floatOf negative whole fraction 0), rest)

/-- The value of a word and the text after it. -/
def literal? (s : List Char) : Option (Raw × List Char) :=
  [("null", Raw.null), ("true", .bool true), ("false", .bool false), ("NaN", .float (0 / 0)),
    ("Infinity", .float (1 / 0)), ("-Infinity", .float (-1 / 0))].findSome? fun (word, value) =>
    (expect word.toList s).map fun rest => (value, rest)

/-- A number or a word, and the text after it. -/
def scalar? (s : List Char) : Option (Raw × List Char) :=
  (literal? s).or <| match s with
    | '-' :: rest => unsignedNumber? true rest
    | _ => unsignedNumber? false s

/-! ## Values -/

/-- Elements after the first, up to the closing bracket, each read by `value`. -/
def elementsRest (value : List Char → Option (Raw × List Char)) :
    Nat → List Char → Option (List Raw × List Char)
  | 0, _ => none
  | fuel + 1, s =>
    match skipSpace s with
    | ']' :: rest => some ([], rest)
    | ',' :: rest =>
      match value (skipSpace rest) with
      | none => none
      | some (v, rest) => (elementsRest value fuel rest).map fun (vs, rest) => (v :: vs, rest)
    | _ => none

/-- A name, a colon and a value, and the text after them. -/
def entry? (value : List Char → Option (Raw × List Char)) (s : List Char) :
    Option ((String × Raw) × List Char) :=
  match string? s with
  | none => none
  | some (name, rest) =>
    match skipSpace rest with
    | ':' :: rest => (value (skipSpace rest)).map fun (v, rest) => ((name, v), rest)
    | _ => none

/-- Entries after the first, up to the closing brace. -/
def entriesRest (value : List Char → Option (Raw × List Char)) :
    Nat → List Char → Option (List (String × Raw) × List Char)
  | 0, _ => none
  | fuel + 1, s =>
    match skipSpace s with
    | '\x7d' :: rest => some ([], rest)
    | ',' :: rest =>
      match entry? value (skipSpace rest) with
      | none => none
      | some (e, rest) => (entriesRest value fuel rest).map fun (es, rest) => (e :: es, rest)
    | _ => none

/-- A value in which lists and objects are nested at most `depth` deep, and the
    text after it. -/
def value? : Nat → List Char → Option (Raw × List Char)
  | _, '"' :: rest => (string? ('"' :: rest)).map fun (s, rest) => (.text s, rest)
  | 0, '[' :: _ => none
  | 0, '\x7b' :: _ => none
  | depth + 1, '[' :: rest =>
    match skipSpace rest with
    | ']' :: rest => some (.list [], rest)
    | rest =>
      match value? depth rest with
      | none => none
      | some (v, rest) =>
        (elementsRest (value? depth) (rest.length + 1) rest).map fun (vs, rest) =>
          (.list (v :: vs), rest)
  | depth + 1, '\x7b' :: rest =>
    match skipSpace rest with
    | '\x7d' :: rest => some (.table [], rest)
    | rest =>
      match entry? (value? depth) rest with
      | none => none
      | some (e, rest) =>
        (entriesRest (value? depth) (rest.length + 1) rest).map fun (es, rest) =>
          (.table (distinct (e :: es)), rest)
  | _, s => scalar? s

/-- The value of a text that is one JSON value with white space around it, where
    lists and objects are nested at most `depth` deep. -/
def readWithin? (depth : Nat) (s : String) : Option Raw :=
  match value? depth (skipSpace s.toList) with
  | some (v, rest) => if (skipSpace rest).isEmpty then some v else none
  | none => none

/-- The value of a text that is one JSON value with white space around it. -/
def read? (s : String) : Option Raw := readWithin? s.length s

end ComponentDecl.Raw.Json
