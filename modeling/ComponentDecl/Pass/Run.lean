import ComponentDecl.Pass.Stage
import ComponentDecl.Raw.CheckComments

/-! # Running a pass

    A pass carries out the plans of its stages one after the other.  Where a
    stage fails, the module gets its former text back if the settings say so.
    Where there is no room for the indentation of the namespace, the pass breaks
    off after two stages, and the module stays as they left it. -/

namespace ComponentDecl

/-! ## Room for texts -/

/-- How long a text can become.  That memory may run out before that is left
    out. -/
inductive Room where
  | unlimited
  /-- At most so many characters. -/
  | upTo (length : Nat)
  deriving DecidableEq, Repr

namespace Room

/-- Holds if a text of so many characters fits. -/
def holds : Room → Nat → Bool
  | .unlimited, _ => true
  | .upTo bound, length => length ≤ bound

/-- The room that an index of 64 bits with a sign leaves. -/
def word : Room := .upTo 9223372036854775807

end Room

/-! ## Stages -/

/-- A module on its way through a pass, with all that was reported so far. -/
structure Session where
  module : Module
  events : List Event

/-- A step on a session.  What it did before a fault stays done. -/
abbrev Pass := ExceptT Fault (StateM Session)

namespace Pass

/-- Reports events. -/
def report (events : List Event) : Pass Unit :=
  modify fun s => { s with events := s.events ++ events }

/-- Carries out a plan. -/
def carryOut {α : Type} (plan : Plan α) : Pass α := do
  report plan.notices
  let s ← get
  match s.module.applyEdits plan.edits with
  | .error e => throw (.breaks (.refusedEdit e))
  | .ok m =>
    set { s with module := m }
    report plan.reports
    return plan.result

/-- Plans a stage that may fail on the present module, and carries it out. -/
def attempt {α : Type} (stage : Module → Except Failure (Plan α)) : Pass α := do
  match stage (← get).module with
  | .error f => throw (.failure f)
  | .ok plan => carryOut plan

/-- Plans a stage on the present module and carries it out. -/
def perform {α : Type} (stage : Module → Plan α) : Pass α := do
  carryOut (stage (← get).module)

/-- Asks for room for a text of so many characters. -/
def askFor (room : Room) (length : Nat) : Pass Unit :=
  if room.holds length then return else throw (.breaks .oversized)

/-- Adds the namespace, once there is room for its indentation. -/
def joinNamespace (room : Room) (className : String) (types : CapturedTypes)
    (settings : Settings) : Pass String := do
  askFor room settings.indentWidth
  perform fun m => buildNamespace m className types settings

/-- Removes the loose aliases and exports the class. -/
def replaceExports (className : String) : Pass Unit := do
  let removed ← perform dropAliases
  perform fun m => exportClass m className removed

/-- All stages in order.  The result is the name of the class and the number of
    documented props. -/
def stagesIn (room : Room) (comments : Option Comments) (settings : Settings) :
    Pass (String × Nat) := do
  let className ← attempt fun m => normalizeExport m comments settings
  let types ← attempt fun m => extractTypes m settings
  -- The module has changed twice by now, and a break does not undo that.
  let ns ← joinNamespace room className types settings
  let documented ← perform fun m => reattachComments m ns comments
  replaceExports ns
  return (className, documented)

/-- All stages in order, for texts of any length. -/
def stages (comments : Option Comments) (settings : Settings) : Pass (String × Nat) :=
  stagesIn .unlimited comments settings

end Pass

/-! ## Whole passes -/

/-- How a pass ended. -/
inductive Outcome where
  | success (className : String) (documented : Nat)
  | failure (f : Failure) (rolledBack : Bool)
  deriving DecidableEq, Repr

/-- Runs a whole pass on a session.  A failure is an outcome, and the module gets
    its former text back if the settings say so.  A break goes past all that. -/
def processIn (room : Room) (comments : Option Comments) (settings : Settings) (s : Session) :
    Except Break Outcome × Session :=
  match (Pass.stagesIn room comments settings).run.run s with
  | (.ok (className, documented), after) =>
    let event := Event.processed s.module.path className documented
    (.ok (.success className documented), { after with events := after.events ++ [event] })
  | (.error (.breaks b), after) => (.error b, after)
  | (.error (.failure f), after) =>
    let rolledBack := settings.rollbackOnFailure
    let module := if rolledBack then after.module.withSource s.module.source else after.module
    let event := Event.failed s.module.path f rolledBack
    (.ok (.failure f rolledBack), ⟨module, after.events ++ [event]⟩)

/-- Runs a whole pass on a session, for texts of any length.  Where there is room
    for the indentation, every pass is this one. -/
def process (comments : Option Comments) (settings : Settings) (s : Session) :
    Except Break Outcome × Session :=
  processIn .unlimited comments settings s

/-! ## Comments that have not been checked -/

/-- Why a pass ends without an outcome. -/
inductive PassError where
  /-- The comments are faulty. -/
  | comments (issues : List Issue)
  /-- The pass breaks off. -/
  | breaks (b : Break)
  deriving DecidableEq, Repr

/-- Checks comments and runs a whole pass with them.  With faulty comments the
    pass does not begin. -/
def processGivenIn (room : Room) (comments : Option Raw) (settings : Settings) (s : Session) :
    Except PassError Outcome × Session :=
  let checked : Checked (Option Comments) := match comments with
    | none => .ok none
    | some value => (Comments.check .value value).map some
  match checked with
  | .error issues => (.error (.comments issues), s)
  | .ok comments =>
    let (result, after) := processIn room comments settings s
    (result.mapError .breaks, after)

/-- Checks comments and runs a whole pass with them, for texts of any length. -/
def processGiven (comments : Option Raw) (settings : Settings) (s : Session) :
    Except PassError Outcome × Session :=
  processGivenIn .unlimited comments settings s

end ComponentDecl
