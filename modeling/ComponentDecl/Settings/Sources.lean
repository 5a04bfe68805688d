import ComponentDecl.Raw.VariableFile
import ComponentDecl.Raw.Json
import ComponentDecl.Raw.Toml
import ComponentDecl.Settings.Check
import ComponentDecl.Text.Case

/-! # Sources of settings

    Settings come from arguments, the environment, a file of variables, a TOML
    file and a JSON file.  For each field the first of these that defines it
    counts, and the others may hold anything. -/

namespace ComponentDecl.Settings

/-! ## One source -/

/-- Names with the values they have in a source. -/
abbrev Source := List (String × Raw)

/-- The prefix of environment names where none is chosen. -/
def standardLead : String := "SVELTEDTS_"

/-- The fields that variables define.  Their names are compared without regard
    to case, and of two that are equal then the later counts. -/
def ofVariables (lead : String) (bindings : List (String × Option String)) : Source :=
  let known := bindings.map fun (name, value) => (Text.lower name, value)
  fieldNames.filterMap fun field =>
    match (Raw.lookup? (Raw.distinct known) (Text.lower lead ++ field)).join with
    | some value => some (field, .text value)
    | none => none

/-- The fields that the environment defines. -/
def ofEnvironment (lead : String) (environment : List (String × String)) : Source :=
  ofVariables lead (environment.map fun (name, value) => (name, some value))

/-- The fields that a file of variables defines, followed by its variables that
    mean nothing.  A variable without a value means nothing and is passed
    over, and so is one with the plain name of a field. -/
def ofVariableFile (lead : String) (bindings : List (String × Option String)) : Source :=
  let fields := ofVariables lead bindings
  let known := Raw.distinct (bindings.map fun (name, value) => (Text.lower name, value))
  let unknown := known.filterMap fun (name, value) =>
    let isField := fieldNames.any fun field => name == Text.lower lead ++ field
    let isPlain := !lead.isEmpty && fieldNames.contains name
    match value with
    | some v => if v.isEmpty || isField || isPlain then none else some (name, .text v)
    | none => none
  fields ++ unknown

/-- The entries of a file's table.  The names of fields are compared without
    regard to case. -/
def ofTable (entries : List (String × Raw)) : Source :=
  Raw.distinct <| entries.map fun (name, value) =>
    let plain := Text.lower name
    (if fieldNames.contains plain then plain else name, value)

/-- The pair that an element of a list spells: a list of two, a text of two
    characters, or the names in a table of two. -/
def pair? : Raw → Option (String × Raw)
  | .list [.text name, value] => some (name, value)
  | .text s =>
    match s.toList with
    | [name, value] => some (String.ofList [name], .text (String.ofList [value]))
    | _ => none
  | .table [(name, _), (value, _)] => some (name, .text value)
  | _ => none

/-- The entries that a value holds: those of a table, or the pairs of a list.  The
    empty text is a list without elements.  No other value holds entries. -/
def entries? : Raw → Option (List (String × Raw))
  | .table entries => some entries
  -- A pair whose name is no text makes the whole list faulty.
  | .list values => values.mapM pair?
  | .text s => if s.isEmpty then some [] else none
  | _ => none

/-! ## All sources -/

/-- One source over another: its definitions count where both have one. -/
def override (source weaker : Source) : Source :=
  source.foldl (fun acc entry => Raw.put acc entry.1 entry.2) weaker

/-- Why a file of settings cannot be read. -/
inductive FileError where
  | toml
  | json
  /-- The JSON file can be read, and holds no entries. -/
  | shape
  deriving DecidableEq, Repr

/-- Why settings cannot be loaded. -/
inductive LoadError where
  /-- A file cannot be read. -/
  | file (e : FileError)
  /-- Values are faulty. -/
  | issues (is : List Issue)
  deriving DecidableEq, Repr

/-- Where settings are looked for. -/
structure Sources where
  /-- What the names of variables start with. -/
  lead : String
  arguments : Source
  environment : List (String × String)
  /-- The text of a file of variables. -/
  variableFile : Option String
  /-- The text of a TOML file. -/
  tomlFile : Option String
  /-- The text of a JSON file. -/
  jsonFile : Option String

namespace Sources

/-- The entries of the TOML file. -/
def toml (s : Sources) : Except FileError Source :=
  match s.tomlFile with
  | none => .ok []
  | some text =>
    match Raw.Toml.read? text with
    | some entries => .ok (ofTable entries)
    | none => .error .toml

/-- The entries of the JSON file. -/
def json (s : Sources) : Except FileError Source :=
  match s.jsonFile with
  | none => .ok []
  | some text =>
    match Raw.Json.read? text with
    | none => .error .json
    | some value =>
      match entries? value with
      | some entries => .ok (ofTable entries)
      | none => .error .shape

/-- The definitions in the file of variables. -/
def fromVariableFile (s : Sources) : Source :=
  match s.variableFile with
  | none => []
  | some text => ofVariableFile s.lead (Raw.VariableFile.read s.environment text)

/-- All definitions, each from the first source that has it. -/
def merged (s : Sources) : Except FileError Source := do
  let toml ← s.toml
  let json ← s.json
  return [json, toml, s.fromVariableFile, ofEnvironment s.lead s.environment, s.arguments].foldl
    (fun weaker source => override source weaker) []

/-- The settings that the sources define. -/
def load (s : Sources) : Except LoadError Settings :=
  match s.merged with
  | .error e => .error (.file e)
  | .ok entries => (check entries).mapError .issues

end Sources

end ComponentDecl.Settings
