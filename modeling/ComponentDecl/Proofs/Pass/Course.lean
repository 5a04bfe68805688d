import ComponentDecl.Pass.Run

/-! # The course of a pass

    A pass hands one batch of edits after another to its module.  It ends where
    a stage has no plan, where a batch is refused, or after the last batch; in
    each case the module is the one that the batches before made.  How long a
    text can become plays a part at one place only, between the second and the
    third batch.

    Key theorems:
    - `Pass.stages_end`: how the stages end, and with which module
    - `processIn_eq_process`: where the room for texts makes no difference
    - `processIn_of_opening`: what a pass leaves where its indentation does not fit
-/

namespace ComponentDecl

variable {comments : Option Comments} {settings : Settings} {m : Module} {room : Room}

/-! ### Batches -/

/-- The batches of edits that the stages hand to a module. -/
inductive Batch (comments : Option Comments) (settings : Settings) (m : Module) :
    List Edit → Prop where
  | normalize {plan : Plan String} (h : normalizeExport m comments settings = .ok plan) :
    Batch comments settings m plan.edits
  | extract {plan : Plan CapturedTypes} (h : extractTypes m settings = .ok plan) :
    Batch comments settings m plan.edits
  | build (className : String) (types : CapturedTypes) :
    Batch comments settings m (buildNamespace m className types settings).edits
  | reattach (ns : String) : Batch comments settings m (reattachComments m ns comments).edits
  | drop : Batch comments settings m (dropAliases m).edits
  | export (className : String) (removed : Nat) :
    Batch comments settings m (exportClass m className removed).edits

/-! ### Modules on the way -/

/-- The first two batches of a pass, carried out: the plans of the first two stages,
    and the module after each of them. -/
structure Opening (comments : Option Comments) (settings : Settings) (m : Module) where
  normalization : Plan String
  extraction : Plan CapturedTypes
  normalized : Module
  extracted : Module
  normalizes : normalizeExport m comments settings = .ok normalization
  toNormalized : m.applyEdits normalization.edits = .ok normalized
  extracts : extractTypes normalized settings = .ok extraction
  toExtracted : normalized.applyEdits extraction.edits = .ok extracted

/-- A pass that carries out all its batches: its opening, and the module after each of
    the other batches. -/
structure Course (comments : Option Comments) (settings : Settings) (m : Module)
    extends Opening comments settings m where
  joined : Module
  documented : Module
  thinned : Module
  exported : Module
  toJoined : extracted.applyEdits
    (buildNamespace extracted normalization.result extraction.result settings).edits = .ok joined
  toDocumented : joined.applyEdits
    (reattachComments joined normalization.result comments).edits = .ok documented
  toThinned : documented.applyEdits (dropAliases documented).edits = .ok thinned
  toExported : thinned.applyEdits
    (exportClass thinned normalization.result (dropAliases documented).result).edits = .ok exported

namespace Course

/-- The name of the class. -/
def className (c : Course comments settings m) : String := c.normalization.result

/-- The number of props that got a comment. -/
def documentedProps (c : Course comments settings m) : Nat :=
  (reattachComments c.joined c.className comments).result

end Course

/-- How the stages of a pass end, and with which module. -/
inductive Ends (comments : Option Comments) (settings : Settings) (m : Module) :
    Except Fault (String × Nat) → Module → Prop where
  /-- The first stage has no plan. -/
  | unexported {f : Failure} (h : normalizeExport m comments settings = .error f) :
    Ends comments settings m (.error (.failure f)) m
  /-- The second stage has no plan. -/
  | unextracted {plan : Plan String} {m₁ : Module} {f : Failure}
    (hplan : normalizeExport m comments settings = .ok plan)
    (happly : m.applyEdits plan.edits = .ok m₁) (h : extractTypes m₁ settings = .error f) :
    Ends comments settings m (.error (.failure f)) m₁
  /-- A batch is refused. -/
  | refused {m' : Module} {edits : List Edit} {e : EditError}
    (hbatch : Batch comments settings m' edits) (h : m'.applyEdits edits = .error e) :
    Ends comments settings m (.error (.breaks (.refusedEdit e))) m'
  /-- All batches are carried out. -/
  | completed (c : Course comments settings m) :
    Ends comments settings m (.ok (c.className, c.documentedProps)) c.exported

namespace Pass

/-! ### Single steps -/

theorem run_bind {α β : Type} (x : Pass α) (f : α → Pass β) (s : Session) :
    (x >>= f).run.run s = match x.run.run s with
      | (.ok a, s') => (f a).run.run s'
      | (.error e, s') => (.error e, s') := by
  rw [ExceptT.run_bind, StateT.run_bind]
  rcases x.run.run s with ⟨_ | _, _⟩ <;> rfl

theorem run_pure {α : Type} (a : α) (s : Session) :
    (pure a : Pass α).run.run s = (.ok a, s) := rfl

theorem run_throw {α : Type} (f : Fault) (s : Session) :
    (throw f : Pass α).run.run s = (.error f, s) := rfl

theorem run_get (s : Session) : (get : Pass Session).run.run s = (.ok s, s) := rfl

theorem run_set (s' s : Session) : (set s' : Pass PUnit).run.run s = (.ok (), s') := rfl

theorem run_report (events : List Event) (s : Session) :
    (report events).run.run s = (.ok (), ⟨s.module, s.events ++ events⟩) := rfl

theorem run_carryOut {α : Type} {plan : Plan α} {s : Session} {m : Module}
    (h : s.module.applyEdits plan.edits = .ok m) :
    (carryOut plan).run.run s =
      (.ok plan.result, ⟨m, s.events ++ plan.notices ++ plan.reports⟩) := by
  simp only [carryOut, run_bind, run_report, run_get, h, run_set, run_pure]

theorem run_carryOut_refused {α : Type} {plan : Plan α} {s : Session} {e : EditError}
    (h : s.module.applyEdits plan.edits = .error e) :
    (carryOut plan).run.run s =
      (.error (.breaks (.refusedEdit e)), ⟨s.module, s.events ++ plan.notices⟩) := by
  simp only [carryOut, run_bind, run_report, run_get, h, run_throw]

/-- Carrying out a plan ends with its result, or with its batch refused. -/
theorem carryOut_end {α : Type} (plan : Plan α) (s : Session) :
    (∃ m events, s.module.applyEdits plan.edits = .ok m ∧
      (carryOut plan).run.run s = (.ok plan.result, ⟨m, events⟩)) ∨
    ∃ e events, s.module.applyEdits plan.edits = .error e ∧
      (carryOut plan).run.run s = (.error (.breaks (.refusedEdit e)), ⟨s.module, events⟩) := by
  cases h : s.module.applyEdits plan.edits with
  | ok m => exact Or.inl ⟨m, _, rfl, run_carryOut h⟩
  | error e => exact Or.inr ⟨e, _, rfl, run_carryOut_refused h⟩

/-- A plan whose batch can be carried out is carried out. -/
theorem carryOut_completes {α : Type} {plan : Plan α} {s : Session} {m : Module}
    (h : s.module.applyEdits plan.edits = .ok m) :
    ∃ events, (carryOut plan).run.run s = (.ok plan.result, ⟨m, events⟩) :=
  ⟨_, run_carryOut h⟩

theorem run_attempt {α : Type} (stage : Module → Except Failure (Plan α)) (s : Session) :
    (attempt stage).run.run s = match stage s.module with
      | .ok plan => (carryOut plan).run.run s
      | .error f => (.error (.failure f), s) := by
  cases h : stage s.module with
  | ok plan => simp only [attempt, run_bind, run_get, h]
  | error f => simp only [attempt, run_bind, run_get, h, run_throw]

theorem run_perform {α : Type} (stage : Module → Plan α) (s : Session) :
    (perform stage).run.run s = (carryOut (stage s.module)).run.run s := by
  simp only [perform, run_bind, run_get]

/-- Where the indentation fits, a namespace is added without more ado. -/
theorem joinNamespace_of_holds (className : String) (types : CapturedTypes)
    (h : room.holds settings.indentWidth = true) :
    joinNamespace room className types settings =
      perform fun m => buildNamespace m className types settings := by
  rw [joinNamespace, askFor, if_pos h, pure_bind]

theorem run_joinNamespace_oversized (className : String) (types : CapturedTypes) (s : Session)
    (h : room.holds settings.indentWidth = false) :
    (joinNamespace room className types settings).run.run s =
      (.error (.breaks .oversized), s) := by
  rw [joinNamespace, askFor, if_neg (by simp [h]), run_bind, run_throw]

/-! ### The first two stages -/

/-- The stages after the first two. -/
def conclusion (room : Room) (comments : Option Comments) (settings : Settings)
    (className : String) (types : CapturedTypes) : Pass (String × Nat) := do
  let ns ← joinNamespace room className types settings
  let documented ← perform fun m => reattachComments m ns comments
  replaceExports ns
  return (className, documented)

/-- Once the first two batches are carried out, the other stages follow. -/
theorem run_stagesIn {s : Session} (o : Opening comments settings s.module) : ∃ events, ∀ room,
    (stagesIn room comments settings).run.run s =
      (conclusion room comments settings o.normalization.result o.extraction.result).run.run
        ⟨o.extracted, events⟩ := by
  obtain ⟨events₁, h₁⟩ := carryOut_completes (s := s) o.toNormalized
  obtain ⟨events₂, h₂⟩ := carryOut_completes (s := ⟨o.normalized, events₁⟩) o.toExtracted
  refine ⟨events₂, fun room => ?_⟩
  simp only [stagesIn, conclusion, run_bind, run_attempt, o.normalizes, h₁, o.extracts, h₂]

/-- The first two batches are carried out, or the stages end before any of them asks for
    room. -/
theorem opening_or_end (comments : Option Comments) (settings : Settings) (s : Session) :
    Nonempty (Opening comments settings s.module) ∨
      ∃ e m' events, Ends comments settings s.module (.error e) m' ∧
        ∀ room, (stagesIn room comments settings).run.run s = (.error e, ⟨m', events⟩) := by
  simp only [stagesIn, run_bind, run_attempt]
  -- Both stages run in the same way whatever the room is, so each end is one for all rooms.
  cases hnormal : normalizeExport s.module comments settings with
  | error f => exact Or.inr ⟨_, _, _, .unexported hnormal, fun _ => rfl⟩
  | ok normalization =>
  rcases carryOut_end normalization s with ⟨m₁, events₁, h₁, hrun⟩ | ⟨e, events₁, h₁, hrun⟩
  case inr =>
    simp only [hrun]
    exact Or.inr ⟨_, _, _, .refused (.normalize hnormal) h₁, fun _ => rfl⟩
  simp only [hrun]
  cases hextract : extractTypes m₁ settings with
  | error f => exact Or.inr ⟨_, _, _, .unextracted hnormal h₁ hextract, fun _ => rfl⟩
  | ok extraction =>
  rcases carryOut_end extraction ⟨m₁, events₁⟩ with
    ⟨m₂, events₂, h₂, hrun⟩ | ⟨e, events₂, h₂, hrun⟩
  · exact Or.inl ⟨⟨_, _, _, _, hnormal, h₁, hextract, h₂⟩⟩
  · simp only [hrun]
    exact Or.inr ⟨_, _, _, .refused (.extract hextract) h₂, fun _ => rfl⟩

/-! ### All stages -/

/-- With room, the stages after the first two carry out all their batches, or one is
    refused. -/
theorem conclusion_end (o : Opening comments settings m) (events : List Event) :
    ∃ r m' events', (conclusion .unlimited comments settings o.normalization.result
      o.extraction.result).run.run ⟨o.extracted, events⟩ = (r, ⟨m', events'⟩) ∧
      Ends comments settings m r m' := by
  have hfits : Room.unlimited.holds settings.indentWidth = true := rfl
  unfold conclusion replaceExports
  -- Each of the four stages either ends the run or leaves a module to the next one.
  simp only [joinNamespace_of_holds _ _ hfits, run_bind, run_perform]
  rcases carryOut_end (buildNamespace o.extracted o.normalization.result o.extraction.result settings)
    ⟨o.extracted, events⟩ with ⟨m₃, events₃, h₃, hrun⟩ | ⟨e, events₃, h₃, hrun⟩
  case inr =>
    simp only [hrun]
    exact ⟨_, _, _, rfl, .refused (.build _ _) h₃⟩
  simp only [hrun]
  rcases carryOut_end (reattachComments m₃ o.normalization.result comments) ⟨m₃, events₃⟩ with
    ⟨m₄, events₄, h₄, hrun⟩ | ⟨e, events₄, h₄, hrun⟩
  case inr =>
    simp only [buildNamespace, hrun]
    exact ⟨_, _, _, rfl, .refused (.reattach _) h₄⟩
  simp only [buildNamespace, hrun]
  rcases carryOut_end (dropAliases m₄) ⟨m₄, events₄⟩ with
    ⟨m₅, events₅, h₅, hrun⟩ | ⟨e, events₅, h₅, hrun⟩
  case inr =>
    simp only [hrun]
    exact ⟨_, _, _, rfl, .refused .drop h₅⟩
  simp only [hrun]
  rcases carryOut_end (exportClass m₅ o.normalization.result (dropAliases m₄).result)
    ⟨m₅, events₅⟩ with ⟨m₆, events₆, h₆, hrun⟩ | ⟨e, events₆, h₆, hrun⟩
  case inr =>
    simp only [hrun]
    exact ⟨_, _, _, rfl, .refused (.export _ _) h₆⟩
  simp only [hrun, run_pure]
  exact ⟨_, _, _, rfl, .completed ⟨o, _, _, _, _, h₃, h₄, h₅, h₆⟩⟩

/-- The stages end in one of the ways in which they can. -/
theorem stages_end (comments : Option Comments) (settings : Settings) (s : Session) :
    ∃ r m' events, (stages comments settings).run.run s = (r, ⟨m', events⟩) ∧
      Ends comments settings s.module r m' := by
  rcases opening_or_end comments settings s with ⟨⟨o⟩⟩ | ⟨e, m', events, hends, hrun⟩
  · obtain ⟨events, hrun⟩ := run_stagesIn o
    obtain ⟨r, m', events', hrun', hends⟩ := conclusion_end o events
    exact ⟨r, m', events', (hrun .unlimited).trans hrun', hends⟩
  · exact ⟨_, m', events, hrun .unlimited, hends⟩

/-! ### Room for the indentation -/

/-- Room for the indentation is all the room that the stages ask for. -/
theorem run_stagesIn_eq (s : Session) (h : room.holds settings.indentWidth = true ∨
      ¬Nonempty (Opening comments settings s.module)) :
    (stagesIn room comments settings).run.run s = (stages comments settings).run.run s := by
  rcases h with hfits | hempty
  · have hjoin : ∀ className types, joinNamespace room className types settings =
        joinNamespace .unlimited className types settings := fun className types =>
      (joinNamespace_of_holds className types hfits).trans
        (joinNamespace_of_holds className types rfl).symm
    simp only [stages, stagesIn, hjoin]
  · rcases opening_or_end comments settings s with ⟨⟨o⟩⟩ | ⟨e, m', events, -, hrun⟩
    · exact absurd ⟨o⟩ hempty
    · rw [stages, hrun, hrun]

theorem run_stagesIn_oversized {s : Session} (o : Opening comments settings s.module)
    (h : room.holds settings.indentWidth = false) : ∃ events,
      (stagesIn room comments settings).run.run s =
        (.error (.breaks .oversized), ⟨o.extracted, events⟩) := by
  obtain ⟨events, hrun⟩ := run_stagesIn o
  exact ⟨events, by rw [hrun, conclusion, run_bind, run_joinNamespace_oversized _ _ _ h]⟩

end Pass

/-! ### Whole passes -/

theorem withSource_of_applyEdits {m m' : Module} {edits : List Edit}
    (h : m.applyEdits edits = .ok m') : m'.withSource m.source = m := by
  unfold Module.applyEdits at h
  cases hbytes : Edit.applyAll edits m.source with
  | error e => simp [hbytes, Except.map] at h
  | ok bytes =>
    simp only [hbytes, Except.map, Except.ok.injEq] at h
    subst h
    exact Module.withSource_self m

/-- How a pass with checked comments ends, and with which module.  A failure of
    the first stage leaves the module alone; one of the second stage leaves the
    module of the first batch, unless that is rolled back. -/
inductive ProcessEnds (comments : Option Comments) (settings : Settings) (m : Module) :
    Except Break Outcome → Module → Prop where
  | unexported {f : Failure} (h : normalizeExport m comments settings = .error f) :
    ProcessEnds comments settings m (.ok (.failure f settings.rollbackOnFailure)) m
  | unextracted {plan : Plan String} {m₁ : Module} {f : Failure}
    (hplan : normalizeExport m comments settings = .ok plan)
    (happly : m.applyEdits plan.edits = .ok m₁) (h : extractTypes m₁ settings = .error f) :
    ProcessEnds comments settings m (.ok (.failure f settings.rollbackOnFailure))
      (if settings.rollbackOnFailure then m else m₁)
  | refused {m' : Module} {edits : List Edit} {e : EditError}
    (hbatch : Batch comments settings m' edits) (h : m'.applyEdits edits = .error e) :
    ProcessEnds comments settings m (.error (.refusedEdit e)) m'
  | completed (c : Course comments settings m) :
    ProcessEnds comments settings m (.ok (.success c.className c.documentedProps)) c.exported

theorem process_ends (comments : Option Comments) (settings : Settings) (s : Session) :
    ProcessEnds comments settings s.module (process comments settings s).1
      (process comments settings s).2.module := by
  obtain ⟨r, m', events, hrun, hends⟩ := Pass.stages_end comments settings s
  rw [Pass.stages] at hrun
  simp only [process, processIn, hrun]
  cases hends with
  | unexported h =>
    have hsame : (if settings.rollbackOnFailure then s.module.withSource s.module.source
        else s.module) = s.module := by
      rw [Module.withSource_self, ite_self]
    simp only [hsame]
    exact .unexported h
  | unextracted hplan happly h =>
    simp only [withSource_of_applyEdits happly]
    exact .unextracted hplan happly h
  | refused hbatch h => exact .refused hbatch h
  | completed c => exact .completed c

/-- A pass that succeeds has carried out all its batches. -/
theorem course_of_success {s s' : Session} {className : String} {documented : Nat}
    (h : process comments settings s = (.ok (.success className documented), s')) :
    ∃ c : Course comments settings s.module, className = c.className ∧
      documented = c.documentedProps ∧ s'.module = c.exported := by
  have hends := process_ends comments settings s
  rw [h] at hends
  generalize hmodule : s'.module = m' at hends
  cases hends with
  | completed c => exact ⟨c, rfl, rfl, rfl⟩

/-! ### Passes with bounded texts -/

/-- With room for its indentation a pass is one for texts of any length, and so is one that
    ends before it asks for room. -/
theorem processIn_eq_process {s : Session} (h : room.holds settings.indentWidth = true ∨
      ¬Nonempty (Opening comments settings s.module)) :
    processIn room comments settings s = process comments settings s := by
  simp only [process, processIn, Pass.run_stagesIn_eq s h, Pass.stages]

/-- A pass without room for its indentation breaks off after two batches.  Neither is taken
    back, whatever the settings say. -/
theorem processIn_of_opening (o : Opening comments settings m) (events : List Event)
    (h : room.holds settings.indentWidth = false) :
    (processIn room comments settings ⟨m, events⟩).1 = .error .oversized ∧
      (processIn room comments settings ⟨m, events⟩).2.module = o.extracted := by
  obtain ⟨reported, hrun⟩ := Pass.run_stagesIn_oversized (s := ⟨m, events⟩) o h
  simp only [processIn, hrun, and_self]

end ComponentDecl
