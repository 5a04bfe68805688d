import ComponentDecl.Proofs.Pass.Export
import ComponentDecl.Proofs.Pass.Namespace

/-! # Passes whose texts are read locally

    A pass makes six texts, one with each batch.  How a parser reads them is not
    settled by the batches.  A pass is read locally if each text is read as the
    trees that the batch has left alone and the ones that its new texts spell.
    For one module that can be computed.

    Key theorem:
    - `readsLocally_of_check`: whether a pass is read locally
-/

namespace ComponentDecl

open Syntax

variable {m : Module} {comments : Option Comments} {settings : Settings}

/-! ### Locality -/

/-- The text that the first batch makes of a module is read locally. -/
def ReadsNormalized (comments : Option Comments) (settings : Settings) (m : Module) : Prop :=
  ∀ (x : ExportedClass) (plan : Plan String) (m₁ : Module), x.In m →
    normalizeExport m comments settings = .ok plan → m.applyEdits plan.edits = .ok m₁ →
    m₁.RereadsAs (m.expect (x.changes comments))

/-- The texts that the other batches of a course make are read locally. -/
structure Course.Local (c : Course comments settings m) : Prop where
  extracted : ∀ v, c.normalized.variableNamed? settings.helperVariable = some v →
    c.extracted.RereadsAs (c.normalized.expect (v.changes c.normalized))
  joined : ∀ stmt,
    c.extracted.statements.find? (·.tree.declares Kind.isClass c.className) = some stmt →
    c.joined.RereadsAs (c.extracted.expect (Module.changeAt stmt
      (joinChange c.className c.extraction.result settings stmt)))
  documented : ∀ docs stmt type, comments = some docs → c.joined.PropsType c.className stmt type →
    (reattachComments c.joined c.className comments).edits ≠ [] →
    c.documented.RereadsAs (c.joined.expect (Module.changeAt stmt
      (documentChange c.joined docs stmt type)))
  thinned : c.thinned.RereadsAs (c.documented.expect aliasesGo)
  exported : c.exported.RereadsAs (c.thinned.tree.nodes.map .same ++ [.exportOf c.className])

/-- All texts that a pass makes of a module are read locally. -/
structure ReadsLocally (comments : Option Comments) (settings : Settings) (m : Module) : Prop where
  first : ReadsNormalized comments settings m
  others : ∀ c : Course comments settings m, c.Local

/-! ### Checking a module -/

namespace Module

/-- The class that a module exports as its own, if it has a name and a base. -/
def exportedClass? (m : Module) : Option ExportedClass :=
  (m.statements.find? (·.isDefaultExport)).bind fun exporting =>
    exporting.exported?.bind fun e =>
      let held := if e.kind = .identifier then
          (m.classNamed? e.text).map fun cls => (cls.topLevel, cls)
        else some (exporting, e)
      held.bind fun h => h.2.name?.bind fun name => h.2.extendsClause?.map fun clause =>
        ⟨exporting, h.1, h.2, name, clause⟩

/-- The namespace of a name with the type of its first alias. -/
def propsType? (m : Module) (ns : String) : Option (Node × Node) :=
  (m.statements.find? (·.tree.declares Kind.isNamespace ns)).bind fun stmt =>
    ((stmt.unwrap.typeAlias? AliasKind.props.name).bind (·.child? .value)).map fun type =>
      (stmt, type)

/-- Whether the trees of a module are the expected ones. -/
def rereads (m : Module) (es : List Expected) : Bool :=
  decide (List.Forall₂ Expected.Reads es m.tree.nodes)

theorem rereadsAs_of_rereads {es : List Expected} (h : m.rereads es = true) : m.RereadsAs es :=
  fun _ => decide_eq_true_eq.mp h

theorem PropsType.propsType? {ns : String} {stmt type : Node} (h : m.PropsType ns stmt type) :
    m.propsType? ns = some (stmt, type) := by
  rw [Module.propsType?, h.statement, Option.bind_some, h.ofAlias]
  rfl

end Module

theorem ExportedClass.In.exportedClass? {x : ExportedClass} (hx : x.In m) :
    m.exportedClass? = some x := by
  obtain ⟨exporting, holding, cls, name, clause⟩ := x
  have hexports : Exports m exporting holding cls := hx.exports
  rw [Module.exportedClass?, hx.exporting, Option.bind_some]
  cases hexports with
  | itself he =>
    have hclass : cls.kind ≠ .identifier := by
      intro hident
      have hkind : cls.kind.isClass = true := hx.kind
      rw [hident] at hkind
      cases hkind
    rw [he, Option.bind_some]
    dsimp only
    rw [if_neg hclass, Option.bind_some, hx.name, Option.bind_some, hx.clause]
    rfl
  | named he hident hcls hstmt hunwrap =>
    have htop : cls.topLevel = holding := by
      rw [← hunwrap]
      exact (Node.below_unwrap holding).topLevel (m.above_of_statement hstmt)
    rw [he, Option.bind_some]
    dsimp only
    rw [if_pos hident, hcls, Option.map_some, Option.bind_some, hx.name, Option.bind_some,
      hx.clause, htop]
    rfl

/-- Goes on with what a step gives. -/
def afterStep {ε α : Type} (step : Except ε α) (check : α → Bool) : Bool :=
  match step with
  | .ok a => check a
  | .error _ => false

theorem exists_of_afterStep {ε α : Type} {step : Except ε α} {check : α → Bool}
    (h : afterStep step check = true) : ∃ a, step = .ok a ∧ check a = true := by
  cases step with
  | ok a => exact ⟨a, rfl, h⟩
  | error e => cases h

/-- Whether a pass completes, and the texts that it makes of a module are read
    locally. -/
def checkLocality (comments : Option Comments) (settings : Settings) (m : Module) : Bool :=
  afterStep (normalizeExport m comments settings) fun normalization =>
  afterStep (m.applyEdits normalization.edits) fun normalized =>
  m.exportedClass?.all (fun x => normalized.rereads (m.expect (x.changes comments))) &&
  afterStep (extractTypes normalized settings) fun extraction =>
  afterStep (normalized.applyEdits extraction.edits) fun extracted =>
  (normalized.variableNamed? settings.helperVariable).all (fun v =>
    extracted.rereads (normalized.expect (v.changes normalized))) &&
  afterStep (extracted.applyEdits
    (buildNamespace extracted normalization.result extraction.result settings).edits) fun joined =>
  (extracted.statements.find? (·.tree.declares Kind.isClass normalization.result)).all (fun stmt =>
    joined.rereads (extracted.expect (Module.changeAt stmt
      (joinChange normalization.result extraction.result settings stmt)))) &&
  afterStep (joined.applyEdits
    (reattachComments joined normalization.result comments).edits) fun documented =>
  comments.all (fun docs => (joined.propsType? normalization.result).all fun st =>
    (reattachComments joined normalization.result comments).edits.isEmpty ||
      documented.rereads (joined.expect (Module.changeAt st.1
        (documentChange joined docs st.1 st.2)))) &&
  afterStep (documented.applyEdits (dropAliases documented).edits) fun thinned =>
  thinned.rereads (documented.expect aliasesGo) &&
  afterStep (thinned.applyEdits
    (exportClass thinned normalization.result (dropAliases documented).result).edits) fun exported =>
  exported.rereads (thinned.tree.nodes.map .same ++ [.exportOf normalization.result])

/-- A module that passes the check is read locally. -/
theorem readsLocally_of_check (h : checkLocality comments settings m = true) :
    ReadsLocally comments settings m := by
  constructor
  · intro x plan m₁ hx hplan happly
    rw [checkLocality, hplan, afterStep, happly, afterStep, hx.exportedClass?, Bool.and_eq_true]
      at h
    exact Module.rereadsAs_of_rereads h.1
  · -- The course fixes every module of the check, so its parts can be read off.
    intro c
    rw [checkLocality, c.normalizes, afterStep, c.toNormalized, afterStep, c.extracts, afterStep,
      c.toExtracted, afterStep, c.toJoined, afterStep, c.toDocumented, afterStep, c.toThinned,
      afterStep, c.toExported, afterStep] at h
    simp only [Bool.and_eq_true] at h
    obtain ⟨-, hextracted, hjoined, hdocumented, hthinned, hexported⟩ := h
    constructor
    · intro v hv
      rw [hv] at hextracted
      exact Module.rereadsAs_of_rereads hextracted
    · intro stmt hstmt
      rw [show c.normalization.result = c.className from rfl, hstmt] at hjoined
      exact Module.rereadsAs_of_rereads hjoined
    · intro docs stmt type hdocs htype hne
      subst hdocs
      have hfound : c.joined.propsType? c.normalization.result = some (stmt, type) :=
        htype.propsType?
      have hsome : (reattachComments c.joined c.normalization.result (some docs)).edits.isEmpty =
          false := List.isEmpty_eq_false_iff.mpr hne
      rw [Option.all_some, hfound, Option.all_some, hsome, Bool.false_or] at hdocumented
      exact Module.rereadsAs_of_rereads hdocumented
    · exact Module.rereadsAs_of_rereads hthinned
    · exact Module.rereadsAs_of_rereads hexported

/-- Whether the first two stages have a plan. -/
def checkPlans (comments : Option Comments) (settings : Settings) (m : Module) : Bool :=
  afterStep (normalizeExport m comments settings) fun normalization =>
  afterStep (m.applyEdits normalization.edits) fun normalized =>
  (extractTypes normalized settings).isOk

/-- A pass whose first two stages have a plan completes. -/
theorem succeeds_of_plans {s : Session} (h : checkPlans comments settings s.module = true) :
    ∃ className documented s',
      process comments settings s = (.ok (.success className documented), s') := by
  unfold checkPlans at h
  obtain ⟨normalization, hnormalizes, h⟩ := exists_of_afterStep h
  obtain ⟨normalized, htoNormalized, hextracts⟩ := exists_of_afterStep h
  have hends := process_ends comments settings s
  generalize hresult : process comments settings s = result at hends
  obtain ⟨outcome, s'⟩ := result
  generalize s'.module = after at hends
  cases hends with
  | unexported h =>
    rw [hnormalizes] at h
    cases h
  | unextracted hplan happly h =>
    obtain rfl := Except.ok.inj (hnormalizes.symm.trans hplan)
    obtain rfl := Except.ok.inj (htoNormalized.symm.trans happly)
    rw [h] at hextracts
    cases hextracts
  | refused hbatch h => exact absurd h (hbatch.not_refused _)
  | completed c => exact ⟨_, _, _, rfl⟩

/-- A pass completes on a module that passes the check. -/
theorem succeeds_of_check {s : Session} (h : checkLocality comments settings s.module = true) :
    ∃ className documented s',
      process comments settings s = (.ok (.success className documented), s') := by
  unfold checkLocality at h
  obtain ⟨normalization, hnormalizes, h⟩ := exists_of_afterStep h
  obtain ⟨normalized, htoNormalized, h⟩ := exists_of_afterStep h
  obtain ⟨extraction, hextracts, -⟩ := exists_of_afterStep (Bool.and_eq_true_iff.mp h).2
  refine succeeds_of_plans ?_
  rw [checkPlans, hnormalizes, afterStep, htoNormalized, afterStep, hextracts]
  rfl

/-- Whether the first batch of a pass is read locally. -/
def checkNormalized (comments : Option Comments) (settings : Settings) (m : Module) : Bool :=
  afterStep (normalizeExport m comments settings) fun normalization =>
  afterStep (m.applyEdits normalization.edits) fun normalized =>
  m.exportedClass?.all fun x => normalized.rereads (m.expect (x.changes comments))

theorem readsNormalized_of_check (h : checkNormalized comments settings m = true) :
    ReadsNormalized comments settings m := by
  intro x plan m₁ hx hplan happly
  rw [checkNormalized, hplan, afterStep, happly, afterStep, hx.exportedClass?] at h
  exact Module.rereadsAs_of_rereads h

/-- Whether a pass completes, and leaves a module that passes a check. -/
def checkExported (comments : Option Comments) (settings : Settings) (m : Module)
    (check : Module → Bool) : Bool :=
  afterStep (normalizeExport m comments settings) fun normalization =>
  afterStep (m.applyEdits normalization.edits) fun normalized =>
  afterStep (extractTypes normalized settings) fun extraction =>
  afterStep (normalized.applyEdits extraction.edits) fun extracted =>
  afterStep (extracted.applyEdits
    (buildNamespace extracted normalization.result extraction.result settings).edits) fun joined =>
  afterStep (joined.applyEdits
    (reattachComments joined normalization.result comments).edits) fun documented =>
  afterStep (documented.applyEdits (dropAliases documented).edits) fun thinned =>
  afterStep (thinned.applyEdits
    (exportClass thinned normalization.result (dropAliases documented).result).edits) check

theorem exported_of_check {check : Module → Bool}
    (h : checkExported comments settings m check = true) (c : Course comments settings m) :
    check c.exported = true := by
  rw [checkExported, c.normalizes, afterStep, c.toNormalized, afterStep, c.extracts, afterStep,
    c.toExtracted, afterStep, c.toJoined, afterStep, c.toDocumented, afterStep, c.toThinned,
    afterStep, c.toExported] at h
  exact h

/-! ### A small component -/

/-- A component with an interface for its events. -/
def smallModule : Module := Module.ofText none
  "interface E{}\nvar h:{props:{a;},events:E,slots:{}}\nexport default class A extends B<P,Q,R>{}"

/-- A description and a comment for its prop. -/
def smallComments : Option Comments := some ⟨some "d", [("a", "/**/")]⟩

/-- The settings for its helper variable. -/
def smallSettings : Settings := { Settings.standard with helperVariable := "h", indentWidth := 0 }

theorem completeComments_small : CompleteComments smallComments := by
  constructor
  · intro text h
    have hrender : describedBy smallComments = some (DocComment.render "d" "").toList := rfl
    obtain rfl := Option.some.inj (hrender.symm.trans h)
    unfold CompleteComment
    decide +kernel
  · intro docs h
    obtain rfl := Option.some.inj h
    decide +kernel

/-- All that is computed of the small component.  The steps that the checks share are
    carried out once. -/
theorem checks_small : (checkLocality smallComments smallSettings smallModule &&
    checkExported smallComments smallSettings smallModule
      (checkNormalized none smallSettings)) = true := by
  decide +kernel

theorem checkLocality_small : checkLocality smallComments smallSettings smallModule = true :=
  (Bool.and_eq_true_iff.mp checks_small).1

/-- It has one default export, one class and no namespace of the class's name. -/
theorem counts_small : (smallModule.statements.filter (·.isDefaultExport)).length = 1 ∧
    (smallModule.statements.filter (·.tree.holdsClass "A")).length = 1 ∧
    (smallModule.namespaceNamed? "A").isNone := by
  decide +kernel

theorem readsLocally_small : ReadsLocally smallComments smallSettings smallModule :=
  readsLocally_of_check checkLocality_small

/-- The pass succeeds on the small component. -/
theorem process_small : ∃ documented s', process smallComments smallSettings ⟨smallModule, []⟩ =
    (.ok (.success "A" documented), s') := by
  obtain ⟨className, documented, s', h⟩ :=
    succeeds_of_check (s := ⟨smallModule, []⟩) checkLocality_small
  obtain ⟨c, rfl, -, -⟩ := course_of_success h
  have hname : (normalizeExport smallModule smallComments smallSettings).toOption.map
      (·.result) = some "A" := by
    decide +kernel
  have hresult : c.className = "A" := by
    rw [c.normalizes] at hname
    exact Option.some.inj hname
  rw [hresult] at h
  exact ⟨documented, s', h⟩

end ComponentDecl
