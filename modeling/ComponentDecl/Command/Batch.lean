import ComponentDecl.Command.Request
import ComponentDecl.CommentsFile
import ComponentDecl.Pass.Run

/-! # Batches of files

    The files of a request are treated one after the other.  A file that fails
    stays as it is, and the batch goes on unless it is to stop at the first
    failure; faulty comments and unreadable files end it in any case. -/

namespace ComponentDecl.Command

/-! ## One file -/

/-- Why a command breaks off without a word of its own. -/
inductive Crash where
  | settings (e : Settings.LoadError)
  | file (e : FileError)
  | undecodable (e : Text.DecodeError)
  | pass (b : Break)
  deriving DecidableEq, Repr

/-- The wording of an issue. -/
def issueLine (i : Issue) : String :=
  ".".intercalate i.place ++ ": " ++ i.kind.message.getD i.kind.word

/-- The wording of a crash. -/
def Crash.message : Crash → String
  | .settings (.file .toml) => "The TOML file of settings is faulty"
  | .settings (.file .json) => "The JSON file of settings is faulty"
  | .settings (.file .shape) => "The JSON file of settings holds no entries"
  | .settings (.issues is) => Text.joinLines (is.map issueLine)
  | .file e => e.message
  | .undecodable e => e.message
  | .pass b => b.message

/-- A read error as the end of a command. -/
def Crash.ofReadError : ReadError → Crash
  | .file e => .file e
  | .undecodable e => .undecodable e

/-- How the restructuring of a file's text ends. -/
inductive Restructured where
  /-- There is a new text. -/
  | text (t : String)
  /-- The pass failed. -/
  | failed (f : Failure)
  deriving DecidableEq, Repr

/-- Restructures the text of a file, and says what was reported meanwhile. -/
def restructure (room : Room) (settings : Settings) (comments : Option Comments)
    (path text : String) : Except Crash Restructured × List Event :=
  match processIn room comments settings ⟨Module.ofText (some path) text, []⟩ with
  | (.error b, after) => (.error (.pass b), after.events)
  | (.ok (.failure f _), after) => (.ok (.failed f), after.events)
  | (.ok (.success _ _), after) =>
    match after.module.text with
    | .ok t => (.ok (.text t), after.events)
    | .error e => (.error (.undecodable e), after.events)

/-! ## All files -/

/-- What is the same for all files of a batch. -/
structure Job where
  settings : Settings
  comments : Option String
  destination : Destination
  failFast : Bool
  room : Room

/-- How far a batch has come. -/
structure Progress where
  files : Files
  /-- What was printed. -/
  printed : String
  /-- What the user was told about failures. -/
  complaints : String
  events : List Event
  failed : Bool

/-- Why a batch ends before its last file. -/
inductive Halt where
  /-- A file failed, and the first failure is to end the batch. -/
  | failure
  /-- A comments file holds no comments. -/
  | invalidComments (file : String) (issues : List Issue)
  | crash (c : Crash)
  deriving DecidableEq, Repr

/-- A fault of a comments file as the end of a batch. -/
def Halt.ofCommentsFileError : CommentsFileError → Halt
  | .unreadable e => .crash (.ofReadError e)
  | .invalid file issues => .invalidComments file issues

/-- Delivers the new text of a file. -/
def deliver (destination : Destination) (path text : String) (p : Progress) :
    Progress × Option Halt :=
  let write (target : String) : Progress × Option Halt :=
    match p.files.writeText target text with
    | .ok files => ({ p with files := files }, none)
    | .error e => (p, some (.crash (.file e)))
  match destination with
  | .print => ({ p with printed := p.printed ++ text }, none)
  | .replace => write path
  | .file target => write target

/-- The line that tells of a failure. -/
def complaint (path : String) (f : Failure) : String := s!"{path}: {f.word}: {f.message}\n"

/-- Treats a file whose text and comments are known. -/
def treatText (job : Job) (p : Progress) (path text : String) (comments : Option Comments) :
    Progress × Option Halt :=
  let (result, events) := restructure job.room job.settings comments path text
  let p := { p with events := p.events ++ events }
  match result with
  | .error c => (p, some (.crash c))
  | .ok (.text t) => deliver job.destination path t p
  | .ok (.failed f) =>
    ({ p with complaints := p.complaints ++ complaint path f, failed := true },
      if job.failFast then some .failure else none)

/-- Treats one file. -/
def treat (job : Job) (p : Progress) (path : String) : Progress × Option Halt :=
  match CommentsFile.load p.files path job.comments with
  | .error e => (p, some (.ofCommentsFileError e))
  | .ok comments =>
    match p.files.readText path with
    | .error e => (p, some (.crash (.ofReadError e)))
    | .ok text => treatText job p path text comments

/-- Treats files in their order. -/
def treatAll (job : Job) (p : Progress) : List String → Progress × Option Halt
  | [] => (p, none)
  | path :: rest =>
    match treat job p path with
    | (p, none) => treatAll job p rest
    | (p, some halt) => (p, some halt)

end ComponentDecl.Command
