import ComponentDecl.Command.Refusal
import ComponentDecl.Files.Store
import ComponentDecl.Settings.Sources

/-! # Requests

    A request is what is left of the arguments once nothing about them can be
    wrong: which files to treat, where the results go, and what is chosen for
    the settings. -/

namespace ComponentDecl.Command

/-- Where a result goes. -/
inductive Destination where
  /-- It is printed. -/
  | print
  /-- It replaces the file. -/
  | replace
  /-- It is written to another file. -/
  | file (path : String)
  deriving DecidableEq, Repr

/-- What the command is asked to do. -/
structure Request where
  files : List String
  comments : Option String
  destination : Destination
  helperVariable : Option String
  argumentPolicy : Option ArgumentPolicy
  rollback : Option Bool
  failFast : Bool
  debug : Bool
  deriving DecidableEq, Repr

/-- The settings that a request chooses. -/
def Request.definitions (r : Request) : Settings.Source :=
  (r.helperVariable.map fun s => ("helper_variable", Raw.text s)).toList ++
  (r.argumentPolicy.map fun p => ("type_argument_policy", Raw.text p.word)).toList ++
  (r.rollback.map fun b => ("rollback_on_failure", Raw.bool b)).toList

/-! ## Checking words -/

/-- Refuses a path without a file. -/
def checkInput (fs : Files) (place : FilePlace) (path : String) : Except Refusal Unit :=
  match fs.find path with
  | .ok _ => .ok ()
  | .error .directory => .error (.directory place path)
  | .error _ => .error (.absentFile place path)

/-- Refuses a directory. -/
def checkOutput (fs : Files) (path : String) : Except Refusal Unit :=
  match fs.find path with
  | .error .directory => .error (.directory .output path)
  | _ => .ok ()

/-- Checks the value of a parameter. -/
def checkValue (fs : Files) (text : String) : Parameter → Except Refusal Unit
  | .comments => checkInput fs .comments text
  | .output => checkOutput fs text
  | .helperVariable => .ok ()
  | .argumentPolicy =>
    if (ArgumentPolicy.ofWord? text).isSome then .ok () else .error (.unknownPolicy text)

/-- Checks the values of all parameters, in the order in which these are first
    given, and then the files. -/
def checkWords (fs : Files) (words : List Word) : Except Refusal Unit := do
  for p in ((valuesOf words).map (·.1)).eraseDups do
    if let some text := valueOf? words p then checkValue fs text p
  if (filesOf words).isEmpty then throw .noFiles
  for path in filesOf words do
    checkInput fs .files path

/-- Where the results for words go. -/
def destinationOf (words : List Word) : Except Refusal Destination :=
  match valueOf? words .output, (flagsOf words).contains .inPlace with
  | some _, true => .error .twoDestinations
  | some path, false => .ok (.file (plainPath path))
  | none, true => .ok .replace
  | none, false => .ok .print

/-- The request that words make. -/
def requestOf (fs : Files) (words : List Word) : Except Refusal Request := do
  checkWords fs words
  let files := filesOf words
  let comments := valueOf? words .comments
  let destination ← destinationOf words
  if files.length > 1 then
    if destination != .replace then throw .sharedDestination
    if comments.isSome then throw .sharedComments
  return {
    files := files.map plainPath
    comments := comments
    destination := destination
    helperVariable := valueOf? words .helperVariable
    argumentPolicy := (valueOf? words .argumentPolicy).bind ArgumentPolicy.ofWord?
    rollback := switch? words .rollback
    failFast := (flagsOf words).contains .failFast
    debug := (switch? words .debug).getD false }

/-- What arguments ask for: help, or a request; and nothing else is looked at
    where help is asked for. -/
def interpret (fs : Files) (arguments : List String) : Except Refusal (Option Request) :=
  match readArguments arguments with
  | .error e => .error (.argument e)
  | .ok words =>
    if (flagsOf words).contains .help then .ok none else (requestOf fs words).map some

end ComponentDecl.Command
