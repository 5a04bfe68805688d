import ComponentDecl.Proofs.Pass.Atomicity

/-! # The policy for type arguments

    Three passes on one module that differ in the policy only.  Where the exported class is
    well-formed and its base does not have exactly three type arguments, a warning is all that
    tells the two lenient policies apart, and the strict one stops the pass before it changes
    anything.  In all other cases the policy makes no difference.

    Key theorems:
    - `normalizeExport_of_in`, `normalizeExport_of_matched`: the first stage under all policies
    - `Pass.addsOn_completion`: the other stages do the same whatever was reported before
    - `processGiven_policy`: whole passes under all policies
-/

namespace ComponentDecl

open Syntax

variable {m : Module} {comments : Option Comments} {settings : Settings} {α β : Type}

/-- The settings with another policy for type arguments. -/
def Settings.withPolicy (settings : Settings) (policy : ArgumentPolicy) : Settings :=
  { settings with argumentPolicy := policy }

/-- Holds of the report that a base class keeps its type arguments. -/
def Event.TellsKept (e : Event) : Prop := e.title = "Base type arguments left untouched"

instance : DecidablePred Event.TellsKept := fun _ => inferInstanceAs (Decidable (_ = _))

@[simp] theorem Event.tellsKept_iff (e : Event) :
    e.TellsKept ↔ ∃ className count base, e = .argumentsKept className count base := by
  cases e <;> simp [Event.TellsKept, Event.title]

/-! ### The first stage -/

/-- Holds of a class that passes all checks of the first stage, and whose base does not have
    exactly three type arguments. -/
structure ExportedClass.Mismatched (x : ExportedClass) (m : Module) : Prop where
  isIn : x.In m
  count : x.clause.baseTypeArguments.length ≠ 3

/-- Where no well-formed class is exported, the first stage fails before it comes to the
    policy. -/
theorem normalizeExport_of_none (comments : Option Comments) (h : ∀ x : ExportedClass, ¬x.In m) :
    ∃ f, ∀ settings, normalizeExport m comments settings = .error f := by
  unfold normalizeExport
  -- The checks one after the other; the policy is asked behind the last of them.
  cases hexported : m.defaultExport? with
  | none => exact ⟨_, fun _ => rfl⟩
  | some exported =>
  dsimp only
  cases hfilter : exported.declaration.filter (·.kind.isClass) with
  | none => exact ⟨_, fun _ => rfl⟩
  | some cls =>
  dsimp only
  cases hname : cls.name? with
  | none => exact ⟨_, fun _ => rfl⟩
  | some name =>
  dsimp only
  cases hclause : cls.extendsClause? with
  | none => exact ⟨_, fun _ => rfl⟩
  | some clause =>
  obtain ⟨hdeclaration, hkind⟩ := Option.filter_eq_some_iff.mp hfilter
  obtain ⟨hexporting, hexports⟩ := exports_of_defaultExport? hexported hdeclaration hkind
  exact absurd ⟨hexporting, hexports, hkind, hname, hclause⟩
    (h ⟨exported.statement, exported.declarationStatement.getD exported.statement, cls, name,
      clause⟩)

/-- The edits that the first stage plans, as it plans them. -/
def ExportedClass.plannedEdits (x : ExportedClass) (m : Module) (comments : Option Comments) :
    List Edit :=
  ⟨x.holding.start, x.cls.start, declareHead comments⟩ ::
    ((if x.exporting.start ≠ x.holding.start then [m.removeStatement x.exporting] else []) ++
      replacements x.namedArguments)

/-- What the first stage does with a well-formed class. -/
theorem normalizeExport_of_in (comments : Option Comments) (settings : Settings)
    {x : ExportedClass} (hx : x.In m) : normalizeExport m comments settings =
      if x.clause.baseTypeArguments.length = 3 then
        .ok ⟨x.name, x.plannedEdits m comments, [], [.normalized x.name]⟩
      else match settings.argumentPolicy with
        | .error => .error
          (.argumentMismatch x.name x.clause.baseTypeArguments.length (m.mention x.clause))
        | .warn => .ok ⟨x.name, x.plannedEdits m comments,
          [.argumentsKept x.name x.clause.baseTypeArguments.length x.clause.text],
          [.normalized x.name]⟩
        | .ignore => .ok ⟨x.name, x.plannedEdits m comments, [], [.normalized x.name]⟩ := by
  have hclass : (some x.cls).filter (·.kind.isClass) = some x.cls := by
    simp [hx.kind]
  have hall : AliasKind.all.length = 3 := rfl
  unfold normalizeExport ExportedClass.plannedEdits ExportedClass.namedArguments
  rw [defaultExport?_of_exports hx.exporting hx.exports hx.kind]
  simp only [hclass, hx.name, hx.clause, hall]
  by_cases hcount : x.clause.baseTypeArguments.length = 3
  · simp only [if_pos hcount, replacements, List.map_map]
    rfl
  · simp only [if_neg hcount, replacements, List.map_nil, List.append_nil]
    cases settings.argumentPolicy <;> rfl

/-- Elsewhere the first stage does not look at the policy. -/
theorem normalizeExport_of_matched (comments : Option Comments)
    (h : ∀ x : ExportedClass, ¬x.Mismatched m) :
    (∃ f, ∀ settings, normalizeExport m comments settings = .error f) ∨
      ∃ name edits, ∀ settings,
        normalizeExport m comments settings = .ok ⟨name, edits, [], [.normalized name]⟩ := by
  by_cases hexported : ∃ x : ExportedClass, x.In m
  · obtain ⟨x, hx⟩ := hexported
    have hcount : x.clause.baseTypeArguments.length = 3 := by
      by_contra hne
      exact h x ⟨hx, hne⟩
    exact Or.inr ⟨_, _, fun settings => by
      rw [normalizeExport_of_in comments settings hx, if_pos hcount]⟩
  · exact Or.inl (normalizeExport_of_none comments (not_exists.mp hexported))

/-! ### Reports -/

namespace Pass

variable {allowed : Event → Prop}

/-- Holds of a pass that does the same on a module whatever was reported before, and that
    reports nothing but what is allowed. -/
def AddsOn (m : Module) (allowed : Event → Prop) (x : Pass α) : Prop :=
  ∃ r m' added, (∀ e ∈ added, allowed e) ∧
    ∀ events, x.run.run ⟨m, events⟩ = (r, ⟨m', events ++ added⟩)

theorem AddsOn.pure (a : α) : AddsOn m allowed (Pure.pure a) :=
  ⟨.ok a, m, [], List.forall_mem_nil _, fun events => by rw [run_pure, List.append_nil]⟩

theorem AddsOn.bind {x : Pass α} {f : α → Pass β} (hx : AddsOn m allowed x)
    (hf : ∀ a m', AddsOn m' allowed (f a)) : AddsOn m allowed (x >>= f) := by
  obtain ⟨r, m₁, added, hadded, hrun⟩ := hx
  cases r with
  | error e => exact ⟨.error e, m₁, added, hadded, fun events => by rw [run_bind, hrun]⟩
  | ok a =>
    obtain ⟨r, m₂, added', hadded', hrun'⟩ := hf a m₁
    refine ⟨r, m₂, added ++ added', List.forall_mem_append.mpr ⟨hadded, hadded'⟩,
      fun events => ?_⟩
    rw [run_bind, hrun]
    dsimp only
    rw [hrun', List.append_assoc]

theorem AddsOn.carryOut {plan : Plan α} (h : ∀ e ∈ plan.notices ++ plan.reports, allowed e) :
    AddsOn m allowed (carryOut plan) := by
  cases happly : m.applyEdits plan.edits with
  | ok m' =>
    refine ⟨.ok plan.result, m', plan.notices ++ plan.reports, h, fun events => ?_⟩
    rw [run_carryOut happly, List.append_assoc]
  | error e =>
    exact ⟨.error (.breaks (.refusedEdit e)), m, plan.notices, (List.forall_mem_append.mp h).1,
      fun events => run_carryOut_refused happly⟩

theorem AddsOn.attempt {stage : Module → Except Failure (Plan α)}
    (h : ∀ plan, stage m = .ok plan → ∀ e ∈ plan.notices ++ plan.reports, allowed e) :
    AddsOn m allowed (attempt stage) := by
  cases hstage : stage m with
  | ok plan =>
    obtain ⟨r, m', added, hadded, hrun⟩ := AddsOn.carryOut (m := m) (h plan hstage)
    exact ⟨r, m', added, hadded, fun events => by rw [run_attempt]; simp only [hstage, hrun]⟩
  | error f =>
    refine ⟨.error (.failure f), m, [], List.forall_mem_nil _, fun events => ?_⟩
    rw [run_attempt, List.append_nil]
    simp only [hstage]

theorem AddsOn.perform {stage : Module → Plan α}
    (h : ∀ e ∈ (stage m).notices ++ (stage m).reports, allowed e) :
    AddsOn m allowed (perform stage) := by
  obtain ⟨r, m', added, hadded, hrun⟩ := AddsOn.carryOut h
  exact ⟨r, m', added, hadded, fun events => by rw [run_perform, hrun]⟩

/-! ### The stages -/

/-- The stages after the first one. -/
def completion (comments : Option Comments) (settings : Settings) (className : String) :
    Pass (String × Nat) := do
  let types ← attempt fun m => extractTypes m settings
  let ns ← perform fun m => buildNamespace m className types settings
  let documented ← perform fun m => reattachComments m ns comments
  replaceExports ns
  return (className, documented)

theorem stages_eq (comments : Option Comments) (settings : Settings) :
    stages comments settings = normalization comments settings >>= completion comments settings :=
  rfl

/-- No stage after the first one looks at the policy. -/
theorem completion_withPolicy (comments : Option Comments) (settings : Settings)
    (policy : ArgumentPolicy) (className : String) :
    completion comments (settings.withPolicy policy) className =
      completion comments settings className := rfl

theorem reports_extractTypes {plan : Plan CapturedTypes} (h : extractTypes m settings = .ok plan) :
    plan.notices = [] ∧ plan.reports = [.typesExtracted settings.helperVariable] := by
  unfold extractTypes at h
  cases hhelper : m.variableNamed? settings.helperVariable with
  | none =>
    rw [hhelper] at h
    cases h
  | some helper =>
    rw [hhelper] at h
    simp only [bind, Except.bind] at h
    split at h
    · cases h
    split at h
    · cases h
    split at h
    · cases h
    · cases h
      exact ⟨rfl, rfl⟩

/-- The stages after the first one never report that type arguments are kept. -/
theorem addsOn_completion (comments : Option Comments) (settings : Settings) (className : String)
    (m : Module) : AddsOn m (¬·.TellsKept) (completion comments settings className) := by
  refine .bind (.attempt fun plan h => ?extract) fun types m => .bind (.perform ?build)
    fun ns m => .bind (.perform ?reattach) fun documented m =>
      .bind (AddsOn.bind (.perform ?drop) fun removed m => .perform ?add :
        AddsOn m _ (replaceExports ns)) fun _ _ => .pure _
  case extract =>
    obtain ⟨hnotices, hreports⟩ := reports_extractTypes h
    rw [hnotices, hreports]
    exact List.forall_mem_singleton.mpr (by simp)
  case build => exact List.forall_mem_singleton.mpr (by simp)
  case reattach =>
    unfold reattachComments
    split
    · exact List.forall_mem_nil _
    · dsimp only
      split
      · exact List.forall_mem_singleton.mpr (by simp)
      · exact List.forall_mem_singleton.mpr (by simp)
  case drop => exact List.forall_mem_nil _
  case add => exact List.forall_mem_singleton.mpr (by simp)

/-- Where the policy makes no difference, no stage reports that type arguments are kept. -/
theorem addsOn_stages (h : ∀ x : ExportedClass, ¬x.Mismatched m) (comments : Option Comments)
    (settings : Settings) : AddsOn m (¬·.TellsKept) (stages comments settings) := by
  rw [stages_eq]
  refine .bind (.attempt fun plan hplan => ?_) fun className m =>
    addsOn_completion comments settings className m
  rcases normalizeExport_of_matched comments h with ⟨f, hf⟩ | ⟨name, edits, hsame⟩
  · rw [hf] at hplan
    cases hplan
  · rw [hsame] at hplan
    cases hplan
    exact List.forall_mem_singleton.mpr (by simp)

end Pass

/-! ### Whole passes -/

/-- The end of a pass, after its stages. -/
def closing (settings : Settings) (before : Module) :
    Except Fault (String × Nat) × Session → Except Break Outcome × Session
  | (.ok (className, documented), after) =>
    (.ok (.success className documented),
      { after with events := after.events ++ [.processed before.path className documented] })
  | (.error (.breaks b), after) => (.error b, after)
  | (.error (.failure f), after) =>
    (.ok (.failure f settings.rollbackOnFailure),
      ⟨if settings.rollbackOnFailure then after.module.withSource before.source else after.module,
        after.events ++ [.failed before.path f settings.rollbackOnFailure]⟩)

theorem process_eq (comments : Option Comments) (settings : Settings) (s : Session) :
    process comments settings s =
      closing settings s.module ((Pass.stages comments settings).run.run s) := by
  unfold process processIn Pass.stages
  rcases (Pass.stagesIn .unlimited comments settings).run.run s with ⟨(_ | _) | _, after⟩ <;> rfl

/-- The end of a pass does the same whatever was reported before, and does not report that type
    arguments are kept. -/
theorem closing_adds (settings : Settings) (before m : Module)
    (r : Except Fault (String × Nat)) : ∃ result m' added, (∀ e ∈ added, ¬e.TellsKept) ∧
      ∀ events, closing settings before (r, ⟨m, events⟩) = (result, ⟨m', events ++ added⟩) := by
  rcases r with (f | e) | ⟨className, documented⟩
  · exact ⟨.ok (.failure f settings.rollbackOnFailure),
      if settings.rollbackOnFailure then m.withSource before.source else m,
      [.failed before.path f settings.rollbackOnFailure],
      List.forall_mem_singleton.mpr (by simp), fun _ => rfl⟩
  · exact ⟨_, _, [], List.forall_mem_nil _, fun _ => by rw [List.append_nil]; rfl⟩
  · exact ⟨_, _, [.processed before.path className documented],
      List.forall_mem_singleton.mpr (by simp), fun _ => rfl⟩

theorem process_withPolicy (comments : Option Comments) (settings : Settings)
    (policy : ArgumentPolicy) (s : Session) :
    process comments (settings.withPolicy policy) s = closing settings s.module
      ((Pass.normalization comments (settings.withPolicy policy) >>=
        Pass.completion comments settings).run.run s) := by
  have hrest : Pass.completion comments (settings.withPolicy policy) =
      Pass.completion comments settings :=
    funext (Pass.completion_withPolicy comments settings policy)
  rw [process_eq, Pass.stages_eq, hrest]
  rfl

/-- Where the policy makes no difference, all passes are the same. -/
theorem process_of_matched {s : Session} (h : ∀ x : ExportedClass, ¬x.Mismatched s.module)
    (comments : Option Comments) (settings : Settings) :
    ∃ result m' added, (∀ e ∈ added, ¬e.TellsKept) ∧ ∀ policy,
      process comments (settings.withPolicy policy) s = (result, ⟨m', s.events ++ added⟩) := by
  have hsame : ∀ policy, process comments (settings.withPolicy policy) s =
      process comments settings s := by
    intro policy
    rw [process_withPolicy, process_eq comments settings, Pass.stages_eq, Pass.run_bind,
      Pass.run_bind, Pass.normalization, Pass.normalization, Pass.run_attempt, Pass.run_attempt]
    rcases normalizeExport_of_matched comments h with ⟨f, hf⟩ | ⟨name, edits, hplan⟩
    · rw [hf, hf]
    · rw [hplan, hplan]
  -- So one of them tells what all of them add to the reports.
  obtain ⟨r, m₁, added, hadded, hrun⟩ := Pass.addsOn_stages h comments settings
  obtain ⟨result, m', last, hlast, hclosing⟩ := closing_adds settings s.module m₁ r
  refine ⟨result, m', added ++ last, List.forall_mem_append.mpr ⟨hadded, hlast⟩,
    fun policy => ?_⟩
  rw [hsame, process_eq, show s = ⟨s.module, s.events⟩ from rfl, hrun, hclosing, List.append_assoc]

/-- Where the policy makes a difference, the strict pass fails at once, and the lenient ones
    differ in one report. -/
theorem process_of_mismatched {s : Session} {x : ExportedClass} (hx : x.Mismatched s.module)
    (comments : Option Comments) (settings : Settings) :
    ∃ result m' added kept f, (∀ e ∈ added, ¬e.TellsKept) ∧ kept.TellsKept ∧
      kept.level = .warning ∧ f.word = "type_argument_mismatch" ∧
      process comments (settings.withPolicy .ignore) s = (result, ⟨m', s.events ++ added⟩) ∧
      process comments (settings.withPolicy .warn) s =
        (result, ⟨m', s.events ++ kept :: added⟩) ∧
      (Pass.normalization comments (settings.withPolicy .error)).run.run s =
        (.error (.failure f), s) ∧
      process comments (settings.withPolicy .error) s =
        (.ok (.failure f settings.rollbackOnFailure), ⟨s.module,
          s.events ++ [.failed s.module.path f settings.rollbackOnFailure]⟩) := by
  have hplan := fun policy => normalizeExport_of_in comments (settings.withPolicy policy) hx.isIn
  simp only [if_neg hx.count] at hplan
  -- The strict stage has no plan.
  have hstrict : (Pass.normalization comments (settings.withPolicy .error)).run.run s =
      (.error (.failure (.argumentMismatch x.name x.clause.baseTypeArguments.length
        (s.module.mention x.clause))), s) := by
    rw [Pass.normalization, Pass.run_attempt, hplan]
    rfl
  -- The lenient ones carry out the same edits.
  obtain ⟨m₁, happly⟩ : ∃ m₁, s.module.applyEdits (x.plannedEdits s.module comments) = .ok m₁ :=
    (Batch.normalize (hplan .ignore)).carriedOut
  have hlenient : ∀ policy notices, normalizeExport s.module comments (settings.withPolicy policy) =
      .ok ⟨x.name, x.plannedEdits s.module comments, notices, [.normalized x.name]⟩ →
      (Pass.normalization comments (settings.withPolicy policy)).run.run s =
        (.ok x.name, ⟨m₁, s.events ++ notices ++ [.normalized x.name]⟩) := by
    intro policy notices h
    rw [Pass.normalization, Pass.run_attempt, h]
    exact Pass.run_carryOut happly
  -- From there on both do the same, on the same module, behind different reports.
  obtain ⟨r, m₂, added, hadded, hrun⟩ := Pass.addsOn_completion comments settings x.name m₁
  obtain ⟨result, m', last, hlast, hclosing⟩ := closing_adds settings s.module m₂ r
  have hprocess : ∀ policy notices,
      normalizeExport s.module comments (settings.withPolicy policy) =
        .ok ⟨x.name, x.plannedEdits s.module comments, notices, [.normalized x.name]⟩ →
      process comments (settings.withPolicy policy) s =
        (result, ⟨m', s.events ++ notices ++ (.normalized x.name :: (added ++ last))⟩) := by
    intro policy notices h
    rw [process_withPolicy, Pass.run_bind, hlenient policy notices h]
    dsimp only
    rw [hrun, hclosing, List.append_assoc, List.append_assoc]
    rfl
  refine ⟨result, m', .normalized x.name :: (added ++ last),
    .argumentsKept x.name x.clause.baseTypeArguments.length x.clause.text, _, ?_, rfl, rfl, rfl,
    ?_, ?_, hstrict, ?_⟩
  · exact List.forall_mem_cons.mpr ⟨by simp,
      List.forall_mem_append.mpr ⟨hadded, hlast⟩⟩
  · rw [hprocess .ignore [] (hplan .ignore), List.append_nil]
  · rw [hprocess .warn _ (hplan .warn), List.append_assoc]
    rfl
  · rw [process_withPolicy, Pass.run_bind, hstrict]
    show (_, Session.mk (if _ then s.module.withSource s.module.source else s.module) _) = _
    rw [Module.withSource_self, ite_self]

/-- A whole pass under a policy. -/
def processUnder (given : Option Raw) (settings : Settings) (s : Session)
    (policy : ArgumentPolicy) : Except PassError Outcome × Session :=
  processGiven given (settings.withPolicy policy) s

/-- The policy for type arguments affects nothing but a base class that does not have exactly
    three of them.  Two lenient passes end alike, with equal modules, and what they report is
    the same up to one warning.  There the strict pass fails in the first stage, which leaves the
    module alone.  In all other cases the three passes are the same and without such a
    warning. -/
theorem processGiven_policy (given : Option Raw) (settings : Settings) (s : Session) :
    (processUnder given settings s .warn).1 = (processUnder given settings s .ignore).1 ∧
    (processUnder given settings s .warn).2.module =
      (processUnder given settings s .ignore).2.module ∧
    ∃ added, (∀ e ∈ added, ¬e.TellsKept) ∧
      (processUnder given settings s .ignore).2.events = s.events ++ added ∧
      ((∃ checked x, checkGiven given = .ok checked ∧ ExportedClass.Mismatched x s.module ∧
          (∃ kept, kept.TellsKept ∧ kept.level = .warning ∧
            (processUnder given settings s .warn).2.events = s.events ++ kept :: added) ∧
          ∃ f, f.word = "type_argument_mismatch" ∧
            (Pass.normalization checked (settings.withPolicy .error)).run.run s =
              (.error (.failure f), s) ∧
            processUnder given settings s .error =
              (.ok (.failure f settings.rollbackOnFailure), ⟨s.module,
                s.events ++ [.failed s.module.path f settings.rollbackOnFailure]⟩)) ∨
        ((∀ checked x, checkGiven given = .ok checked →
            ¬ExportedClass.Mismatched x s.module) ∧
          (processUnder given settings s .warn).2.events = s.events ++ added ∧
          processUnder given settings s .error = processUnder given settings s .ignore)) := by
  cases hchecked : checkGiven given with
  | error issues =>
    have hrun : ∀ policy, processUnder given settings s policy = (.error (.comments issues), s) :=
      fun policy => processGiven_of_faulty hchecked
    refine ⟨by rw [hrun, hrun], by rw [hrun, hrun], [], List.forall_mem_nil _,
      by rw [hrun, List.append_nil], Or.inr ⟨?_, by rw [hrun, List.append_nil], by rw [hrun, hrun]⟩⟩
    rintro checked - h
    cases h
  | ok checked =>
  have hrun : ∀ policy, processUnder given settings s policy =
      ((process checked (settings.withPolicy policy) s).1.mapError .breaks,
        (process checked (settings.withPolicy policy) s).2) :=
    fun policy => processGiven_of_checked hchecked
  -- A policy matters only for a class whose type arguments do not match.
  by_cases h : ∃ x, ExportedClass.Mismatched x s.module
  · obtain ⟨x, hx⟩ := h
    obtain ⟨result, m', added, kept, f, hadded, hkept, hlevel, hword, hignore, hwarn, hstrict,
      herror⟩ := process_of_mismatched hx checked settings
    rw [hrun, hrun, hrun, hignore, hwarn, herror]
    exact ⟨rfl, rfl, added, hadded, rfl, Or.inl ⟨checked, x, rfl, hx, ⟨kept, hkept, hlevel, rfl⟩,
      f, hword, hstrict, rfl⟩⟩
  · obtain ⟨result, m', added, hadded, hprocess⟩ :=
      process_of_matched (not_exists.mp h) checked settings
    rw [hrun, hrun, hrun, hprocess, hprocess, hprocess]
    exact ⟨rfl, rfl, added, hadded, rfl, Or.inr ⟨fun _ x _ hx => h ⟨x, hx⟩, rfl, rfl⟩⟩

end ComponentDecl
