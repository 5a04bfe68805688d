import ComponentDecl.Text.Lines
import ComponentDecl.Text.Blank

/-! # Files of environment variables

    Reads lines that give variables values, as a shell would: names after an
    optional word for export, values plain or in quotes, comments after a number
    sign, and references to other variables in braces after a dollar sign.  A
    line that cannot be read is passed over. -/

namespace ComponentDecl.Raw.VariableFile

/-- A variable with its value; a name alone has none. -/
abbrev Binding := String × Option String

/-! ## Parts of a line -/

/-- Holds of characters that end a line. -/
def isBreak (c : Char) : Bool := c == '\n' || c == '\r'

/-- Blanks inside a line. -/
def isSpace (c : Char) : Bool := Text.isBlank c && !isBreak c

/-- The text after blanks inside the line. -/
def skipSpace (s : List Char) : List Char := s.dropWhile isSpace

/-- The text after the end of a line. -/
def lineEnd? : List Char → Option (List Char)
  | '\r' :: '\n' :: rest => some rest
  | [] => some []
  | c :: rest => if isBreak c then some rest else none

/-- The text after the word for export and the blanks that follow it. -/
def skipExport (s : List Char) : List Char :=
  let word := "export".toList
  if word.isPrefixOf s && ((s.drop word.length).head?.map isSpace).getD false then
    skipSpace (s.drop word.length)
  else s

/-- The characters up to a quote that no backslash hides, and the text after that
    quote.  A backslash hides only the quote. -/
def quotedUpTo (quote : Char) : List Char → Option (List Char × List Char)
  | [] => none
  | '\\' :: c :: rest =>
    if c == quote then
      match quotedUpTo quote rest with
      | some (value, after) => some ('\\' :: c :: value, after)
      | none => some (['\\'], rest)
    else (quotedUpTo quote (c :: rest)).map fun (value, after) => ('\\' :: value, after)
  | c :: rest =>
    if c == quote then some ([], rest)
    else (quotedUpTo quote rest).map fun (value, after) => (c :: value, after)

/-- A name: in single quotes, or up to a blank, an equals sign or a number
    sign.  A line that starts with a number sign has no name. -/
def name? (s : List Char) : Option (Option String × List Char) :=
  match s with
  | '#' :: _ => some (none, s)
  | '\'' :: rest =>
    match rest.takeWhile (· != '\''), rest.dropWhile (· != '\'') with
    | c :: cs, '\'' :: after => some (some (String.ofList (c :: cs)), after)
    | _, _ => none
  | _ =>
    match s.takeWhile fun c => c != '=' && c != '#' && !Text.isBlank c with
    | [] => none
    | name => some (some (String.ofList name), s.drop name.length)

/-- Characters with their escapes replaced, where `escapes` says which character
    after a backslash stands for which. -/
def unescape (escapes : List (Char × Char)) : List Char → List Char
  | '\\' :: c :: rest =>
    match escapes.lookup c with
    | some d => d :: unescape escapes rest
    | none => '\\' :: unescape escapes (c :: rest)
  | c :: rest => c :: unescape escapes rest
  | [] => []

/-- The escapes between single quotes. -/
def singleEscapes : List (Char × Char) := [('\\', '\\'), ('\'', '\'')]

/-- The escapes between double quotes. -/
def doubleEscapes : List (Char × Char) :=
  [('\\', '\\'), ('\'', '\''), ('"', '"'), ('a', '\x07'), ('b', '\x08'), ('f', '\x0c'),
    ('n', '\n'), ('r', '\r'), ('t', '\t'), ('v', '\x0b')]

/-- A plain value without the comment after it: a number sign after a blank. -/
def withoutComment : List Char → List Char
  | [] => []
  | c :: rest =>
    if Text.isBlank c && (rest.dropWhile Text.isBlank).head? == some '#' then []
    else c :: withoutComment rest

/-- A value and the text after it. -/
def value? (s : List Char) : Option (String × List Char) :=
  match s with
  | '\'' :: rest =>
    (quotedUpTo '\'' rest).map fun (t, after) => (String.ofList (unescape singleEscapes t), after)
  | '"' :: rest =>
    (quotedUpTo '"' rest).map fun (t, after) => (String.ofList (unescape doubleEscapes t), after)
  | _ =>
    let part := s.takeWhile (!isBreak ·)
    some (String.ofList (Text.dropEndWhile Text.isBlank (withoutComment part)),
      s.drop part.length)

/-- The text after a comment, if there is one after blanks. -/
def skipComment (s : List Char) : List Char :=
  match skipSpace s with
  | '#' :: rest => rest.dropWhile (!isBreak ·)
  | _ => s

/-- One line, from its name on. -/
def line? (s : List Char) : Option (Option Binding × List Char) := do
  let (name, s) ← name? (skipExport s)
  let s := skipSpace s
  let (value, s) ← match s with
    | '=' :: rest => (value? (skipSpace rest)).map fun (v, rest) => (some v, rest)
    | _ => some (none, s)
  let s ← lineEnd? (skipSpace (skipComment s))
  return (name.map (·, value), s)

/-! ## Whole files -/

/-- All lines, at most one for each character of `fuel`. -/
def bindingsWithin : List Char → List Char → List Binding
  | [], _ => []
  | _ :: fuel, s =>
    match s.dropWhile Text.isBlank with
    | [] => []
    | s =>
      match line? s with
      | some (some b, rest) => b :: bindingsWithin fuel rest
      | some (none, rest) => bindingsWithin fuel rest
      | none => bindingsWithin fuel ((s.dropWhile (!isBreak ·)).drop 1)

/-- The variables of a text in order. -/
def bindings (s : String) : List Binding :=
  let text := Text.unifyLineFeeds s.toList
  bindingsWithin text text

/-! ## References to other variables -/

/-- A reference after its opening brace: the name, the value to take when there
    is no such variable, and the text after the closing brace. -/
def reference? (s : List Char) : Option (String × String × List Char) :=
  let name := s.takeWhile fun c => c != '\x7d' && c != ':'
  match s.drop name.length with
  | '\x7d' :: rest => some (String.ofList name, "", rest)
  | ':' :: '-' :: more =>
    match more.dropWhile (· != '\x7d') with
    | '\x7d' :: rest =>
      some (String.ofList name, String.ofList (more.takeWhile (· != '\x7d')), rest)
    | _ => none
  | _ => none

/-- A value with its references replaced, where `find` knows the variables. -/
def expand (find : String → Option String) : List Char → List Char → List Char
  | _ :: fuel, '$' :: '\x7b' :: rest =>
    match reference? rest with
    | some (name, default, after) => ((find name).getD default).toList ++ expand find fuel after
    | none => '$' :: expand find fuel ('\x7b' :: rest)
  | _ :: fuel, c :: rest => c :: expand find fuel rest
  | _, _ => []

/-- The variables of a text with their references replaced.  A reference means
    the last variable of that name before it, or else one of the environment. -/
def read (environment : List (String × String)) (s : String) : List Binding :=
  (bindings s).foldl (fun done (name, value) =>
    let find (n : String) : Option String :=
      match done.reverse.find? (·.1 == n) with
      | some (_, v) => some (v.getD "")
      | none => environment.lookup n
    done ++ [(name, value.map fun v => String.ofList (expand find v.toList v.toList))]) []

end ComponentDecl.Raw.VariableFile
