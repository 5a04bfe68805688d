import ComponentDecl.Command.Batch
import ComponentDecl.Command.Help

/-! # Running the command

    From arguments, environment and files to what is printed, the exit code and
    the files afterwards. -/

namespace ComponentDecl.Command

/-- What a run of the command leaves behind. -/
structure Report where
  exitCode : Nat
  printed : String
  complaints : String
  /-- The events that are logged. -/
  events : List Event
  files : Files
  crash : Option Crash

/-! ## Reports -/

/-- The report on a run that did nothing but print. -/
def Report.ofPrinted (fs : Files) (text : String) : Report := ⟨0, text, "", [], fs, none⟩

/-- The report on a refused command. -/
def Report.ofRefusal (fs : Files) (r : Refusal) : Report := ⟨2, "", r.report, [], fs, none⟩

/-- The events that are logged. -/
def loggedOf (debug : Bool) (events : List Event) : List Event :=
  events.filter fun e => debug || e.level != .debug

/-- The report on a batch. -/
def Report.ofBatch (debug : Bool) (p : Progress) (halt : Option Halt) : Report :=
  let complaints := match halt with
    | some (.invalidComments file issues) =>
      p.complaints ++ s!"Error: {CommentsFile.invalidMessage file issues}\n"
    | _ => p.complaints
  let crash := match halt with
    | some (.crash c) => some c
    | _ => none
  ⟨if p.failed || halt.isSome then 1 else 0, p.printed, complaints, loggedOf debug p.events,
    p.files, crash⟩

/-- The text of a field's value. -/
def fieldText : FieldValue → String
  | .absent => "none"
  | .text s => s
  | .count n => toString n
  | .flag b => if b then "true" else "false"

/-- The line that logs an event. -/
def logLine (e : Event) : String :=
  let fields := e.fields.map fun (name, value) => " " ++ name ++ "=" ++ fieldText value
  s!"[{e.level.word}] {e.title}" ++ String.join fields

/-- All that is written to the error channel: the log, what the user is told, and
    the crash. -/
def Report.errorText (r : Report) : String :=
  let log := String.join (r.events.map fun e => logLine e ++ "\n")
  let crash := match r.crash with
    | some c => c.message ++ "\n"
    | none => ""
  log ++ r.complaints ++ crash

/-! ## Runs -/

/-- The settings of a request. -/
def settingsOf (environment : List (String × String)) (r : Request) :
    Except Settings.LoadError Settings :=
  Settings.Sources.load
    ⟨Settings.standardLead, r.definitions, environment, none, none, none⟩

/-- The names of the variables that may hold settings, in capitals as is usual
    and in small letters. -/
def variableNames : List String :=
  Settings.fieldNames.flatMap fun field =>
    let name := Settings.standardLead ++ field
    [name.map Char.toUpper, name.map Char.toLower]

/-- The paths at which files may be read or written for arguments. -/
def pathsOf (arguments : List String) : List String :=
  match readArguments arguments with
  | .error _ => []
  | .ok words =>
    (filesOf words).flatMap (fun path => [path, CommentsFile.pathFor path]) ++
      (valueOf? words .comments).toList ++ (valueOf? words .output).toList

/-- Carries out a request. -/
def carryOut (room : Room) (fs : Files) (environment : List (String × String)) (r : Request) :
    Report :=
  let start : Progress := ⟨fs, "", "", [], false⟩
  match settingsOf environment r with
  | .error e => .ofBatch r.debug start (some (.crash (.settings e)))
  | .ok settings =>
    let (p, halt) :=
      treatAll ⟨settings, r.comments, r.destination, r.failFast, room⟩ start r.files
    .ofBatch r.debug p halt

/-- Runs the command. -/
def runIn (room : Room) (fs : Files) (environment : List (String × String))
    (arguments : List String) : Report :=
  match interpret fs arguments with
  | .error r => .ofRefusal fs r
  | .ok none => .ofPrinted fs help
  | .ok (some request) => carryOut room fs environment request

/-- Runs the command, for texts of any length. -/
def run (fs : Files) (environment : List (String × String)) (arguments : List String) : Report :=
  runIn .unlimited fs environment arguments

end ComponentDecl.Command
