import ComponentDecl.Text.Similarity

/-! # Arguments of the command

    Arguments are files and options in any order.  A double dash ends the
    options.  Options have long names, some have a letter too, and letters may
    stand together behind one dash. -/

namespace ComponentDecl.Command

/-! ## Options -/

/-- What an option without a value asks for. -/
inductive Flag where
  | inPlace
  | failFast
  | rollback (on : Bool)
  | debug (on : Bool)
  | help
  deriving DecidableEq, Repr

/-- What an option with a value sets. -/
inductive Parameter where
  | comments
  | output
  | helperVariable
  | argumentPolicy
  deriving DecidableEq, Repr

/-- What the name of an option means. -/
inductive Meaning where
  | flag (f : Flag)
  | parameter (p : Parameter)
  deriving DecidableEq, Repr

/-- The options by their long names. -/
def longNames : List (String × Meaning) :=
  [("--comments", .parameter .comments),
   ("--output", .parameter .output),
   ("--in-place", .flag .inPlace),
   ("--helper-variable", .parameter .helperVariable),
   ("--type-argument-policy", .parameter .argumentPolicy),
   ("--rollback", .flag (.rollback true)),
   ("--no-rollback", .flag (.rollback false)),
   ("--fail-fast", .flag .failFast),
   ("--debug", .flag (.debug true)),
   ("--no-debug", .flag (.debug false)),
   ("--help", .flag .help)]

/-- The options that have a letter. -/
def letters : List (Char × Meaning) :=
  [('o', .parameter .output), ('h', .flag .help)]

/-! ## Reading arguments -/

/-- What arguments say. -/
inductive Word where
  | flag (f : Flag)
  | value (p : Parameter) (text : String)
  | file (path : String)
  deriving DecidableEq, Repr

/-- Why arguments mean nothing. -/
inductive ArgumentError where
  /-- There is no such option. -/
  | unknownOption (name : String)
  /-- The value of an option is missing. -/
  | missingValue (name : String)
  /-- A value is given to an option that has none. -/
  | unexpectedValue (name : String)
  deriving DecidableEq, Repr

/-- What one argument says.  An option may still wait for its value. -/
structure Reading where
  words : List Word
  waiting : Option (Parameter × String)

/-- Reads letters behind a dash.  What follows the letter of an option with a
    value is the value. -/
def readLetters : List Char → Except ArgumentError Reading
  | [] => .ok ⟨[], none⟩
  | c :: rest =>
    let name := String.ofList ['-', c]
    match letters.lookup c with
    | none => .error (.unknownOption name)
    | some (.flag f) => (readLetters rest).map fun r => { r with words := .flag f :: r.words }
    | some (.parameter p) =>
      if rest.isEmpty then .ok ⟨[], some (p, name)⟩
      else .ok ⟨[.value p (String.ofList rest)], none⟩

/-- Splits an option at its first equals sign. -/
def splitValue (option : List Char) : String × Option String :=
  let name := option.takeWhile (· != '=')
  (String.ofList name,
    if name.length < option.length then some (String.ofList (option.drop (name.length + 1)))
    else none)

/-- Reads an option. -/
def readOption (option : List Char) : Except ArgumentError Reading :=
  let (name, value) := splitValue option
  match longNames.lookup name, value with
  | some (.flag f), none => .ok ⟨[.flag f], none⟩
  | some (.flag _), some _ => .error (.unexpectedValue name)
  | some (.parameter p), some v => .ok ⟨[.value p v], none⟩
  | some (.parameter p), none => .ok ⟨[], some (p, name)⟩
  | none, _ =>
    if "--".toList.isPrefixOf option then .error (.unknownOption name)
    else readLetters (option.drop 1)

/-- Reads one argument. -/
def readArgument (argument : String) : Except ArgumentError Reading :=
  match argument.toList with
  | '-' :: c :: rest => readOption ('-' :: c :: rest)
  | _ => .ok ⟨[.file argument], none⟩

/-- Reads all arguments. -/
def readArguments : List String → Except ArgumentError (List Word)
  | [] => .ok []
  | argument :: rest =>
    if argument == "--" then .ok (rest.map .file)
    else
      match readArgument argument with
      | .error e => .error e
      | .ok ⟨words, none⟩ => (readArguments rest).map (words ++ ·)
      | .ok ⟨words, some (p, name)⟩ =>
        match rest with
        | [] => .error (.missingValue name)
        | v :: rest' => (readArguments rest').map (words ++ .value p v :: ·)

/-! ## Looking at words -/

/-- The files among words. -/
def filesOf (words : List Word) : List String :=
  words.filterMap fun
    | .file path => some path
    | _ => none

/-- The flags among words. -/
def flagsOf (words : List Word) : List Flag :=
  words.filterMap fun
    | .flag f => some f
    | _ => none

/-- The values among words. -/
def valuesOf (words : List Word) : List (Parameter × String) :=
  words.filterMap fun
    | .value p text => some (p, text)
    | _ => none

/-- The value of a parameter; the last one counts. -/
def valueOf? (words : List Word) (p : Parameter) : Option String :=
  (valuesOf words).reverse.lookup p

/-- Whether a switch is on; the last flag that sets it counts. -/
def switch? (words : List Word) (setting : Bool → Flag) : Option Bool :=
  (flagsOf words).reverse.findSome? fun f =>
    if f = setting true then some true else if f = setting false then some false else none

end ComponentDecl.Command
