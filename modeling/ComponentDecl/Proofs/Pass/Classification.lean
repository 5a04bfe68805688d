import ComponentDecl.Proofs.Pass.Locality

/-! # Which failure a module has

    How a pass ends can be told from the module before the pass.  The second
    stage looks at a text that the first one has rewritten, but the first stage
    changes no variable and no type, so what the second stage looks for was there
    before.

    Key theorem:
    - `process_diagnosed`: a pass ends as the diagnosis of the module says
-/

namespace ComponentDecl

open Syntax

variable {m : Module} {comments : Option Comments} {settings : Settings}

/-! ### Diagnosis -/

/-- What a pass finds in a module: a fault, or none. -/
inductive Diagnosis where
  | missingDefaultExport
  | exportedNonClass
  | missingHeritage
  | argumentMismatch
  | missingHelper
  | missingMember (kind : AliasKind)
  | sound
  deriving DecidableEq, Repr

/-- The class of failures for a diagnosis. -/
def Diagnosis.word : Diagnosis → String
  | .missingDefaultExport => "missing_default_export"
  | .exportedNonClass => "default_export_not_class"
  | .missingHeritage => "missing_heritage_clause"
  | .argumentMismatch => "type_argument_mismatch"
  | .missingHelper => "missing_helper_variable"
  | .missingMember _ => "missing_helper_member"
  | .sound => "success"

/-- The class that a statement exports: a named class that it holds, or the class
    of the module that it names. -/
def Module.classExportedBy? (m : Module) (stmt : Node) : Option Node :=
  stmt.exported?.bind fun e =>
    if e.kind.isClass && e.name?.isSome then some e
    else if e.kind = .identifier then m.classNamed? e.text
    else none

/-- The diagnosis of a module: the first fault, in the order in which a pass
    meets them. -/
def diagnose (m : Module) (settings : Settings) : Diagnosis :=
  match m.statements.find? (·.isDefaultExport) with
  | none => .missingDefaultExport
  | some stmt =>
    match m.classExportedBy? stmt with
    | none => .exportedNonClass
    | some cls =>
      match cls.extendsClause? with
      | none => .missingHeritage
      | some clause =>
        if clause.baseTypeArguments.length ≠ 3 ∧ settings.argumentPolicy = .error then
          .argumentMismatch
        else
          match m.variableNamed? settings.helperVariable with
          | none => .missingHelper
          | some v =>
            match (m.variableMembers v).firstMissing? with
            | some kind => .missingMember kind
            | none => .sound

/-- The class of an outcome. -/
def Outcome.word : Outcome → String
  | .success _ _ => "success"
  | .failure f _ => f.word

/-- Holds of an outcome that says what a diagnosis says, with the missing member
    by name. -/
structure Diagnosis.SaidBy (d : Diagnosis) (helper : String) (outcome : Outcome) : Prop where
  word : outcome.word = d.word
  member : ∀ kind, d = .missingMember kind → ∃ f rolledBack,
    outcome = .failure f rolledBack ∧
      f.message = "Helper variable \x60" ++ helper ++ "\x60 has no \x60" ++ kind.member ++
        "\x60 member"

/-! ### The first stage -/

/-- The class that a module exports as its own is the one that the exporting
    statement holds or names, if it has a name. -/
theorem classExportedBy?_eq {exported : DefaultExport} (h : m.defaultExport? = some exported) :
    m.statements.find? (·.isDefaultExport) = some exported.statement ∧
      m.classExportedBy? exported.statement =
        exported.declaration.filter fun d => d.kind.isClass && d.name?.isSome := by
  rw [defaultExport?_eq] at h
  obtain ⟨stmt, hstmt, rfl⟩ := Option.map_eq_some_iff.mp h
  cases he : stmt.exported? with
  | none =>
    refine ⟨hstmt, ?_⟩
    show m.classExportedBy? stmt = none
    rw [Module.classExportedBy?, he]
    rfl
  | some e =>
  rw [Option.bind_some, Module.namedExport?]
  -- A name is looked up among the classes first; anything else is exported itself.
  by_cases hident : e.kind = .identifier
  · have hclass : e.kind.isClass = false := by rw [hident]; rfl
    have hby : m.classExportedBy? stmt = m.classNamed? e.text := by
      rw [Module.classExportedBy?, he, Option.bind_some, hclass, Bool.false_and,
        if_neg Bool.false_ne_true, if_pos hident]
    rw [if_pos hident]
    cases hnamed : m.classNamed? e.text with
    | some c =>
      refine ⟨hstmt, ?_⟩
      obtain ⟨-, -, -, hkind, hname⟩ := Module.classNamed?_spec hnamed
      show m.classExportedBy? stmt = (some c).filter _
      rw [hby, hnamed, Option.filter_some, hkind, hname]
      rfl
    | none =>
      dsimp only
      cases hdeclared : m.declarationNamed? e.text with
      | some d =>
        refine ⟨hstmt, ?_⟩
        show m.classExportedBy? stmt = (some d.declaration).filter _
        rw [hby, hnamed, Option.filter_some, declarationNamed?_not_class hdeclared hnamed]
        rfl
      | none =>
        refine ⟨hstmt, ?_⟩
        show m.classExportedBy? stmt = (some e).filter _
        rw [hby, hnamed, Option.filter_some, hclass]
        rfl
  · rw [if_neg hident]
    refine ⟨hstmt, ?_⟩
    show m.classExportedBy? stmt = (some e).filter _
    rw [Module.classExportedBy?, he, Option.bind_some, if_neg hident, Option.filter_some]

theorem ExportedClass.In.classExportedBy {x : ExportedClass} (hx : x.In m) :
    m.classExportedBy? x.exporting = some x.cls := by
  have h := defaultExport?_of_exports hx.exporting hx.exports hx.kind
  rw [(classExportedBy?_eq h).2]
  show (some x.cls).filter _ = _
  rw [Option.filter_some, hx.kind, hx.name]
  rfl

/-- A failure of the first stage is the diagnosis of the module. -/
theorem diagnose_of_normalizeExport {f : Failure}
    (h : normalizeExport m comments settings = .error f) :
    f.word = (diagnose m settings).word ∧ ∀ kind, diagnose m settings ≠ .missingMember kind := by
  have hends := normalizeExport_ends m comments settings
  rw [h] at hends
  unfold diagnose
  cases hends with
  | noExport hnone =>
    rw [defaultExport?_eq, Option.map_eq_none_iff] at hnone
    rw [hnone]
    exact ⟨rfl, nofun⟩
  | nonClass hexported hclass =>
    obtain ⟨hstmt, hby⟩ := classExportedBy?_eq hexported
    rw [← Option.filter_filter, hclass] at hby
    rw [hstmt]
    dsimp only
    rw [hby]
    exact ⟨rfl, nofun⟩
  | unnamed hexported hclass hkind hname =>
    obtain ⟨hstmt, hby⟩ := classExportedBy?_eq hexported
    rw [hclass, Option.filter_some, hname, Option.isSome_none, Bool.and_false] at hby
    rw [hstmt]
    dsimp only
    rw [hby]
    exact ⟨rfl, nofun⟩
  | noHeritage hexported hclass hkind hname hclause =>
    obtain ⟨hstmt, hby⟩ := classExportedBy?_eq hexported
    rw [hclass, Option.filter_some, hname, hkind, Option.isSome_some, Bool.and_self,
      if_pos rfl] at hby
    rw [hstmt]
    dsimp only
    rw [hby]
    dsimp only
    rw [hclause]
    exact ⟨rfl, nofun⟩
  | mismatch hx hcount hpolicy =>
    rw [hx.exporting]
    dsimp only
    rw [hx.classExportedBy]
    dsimp only
    rw [hx.clause]
    dsimp only
    rw [if_pos ⟨hcount, hpolicy⟩]
    exact ⟨rfl, nofun⟩

/-- Where the first stage has a plan, the diagnosis is left to the second one. -/
theorem diagnose_of_plan {x : ExportedClass} (hx : x.In m)
    (hcount : x.clause.baseTypeArguments.length = 3 ∨ settings.argumentPolicy ≠ .error) :
    diagnose m settings = match m.variableNamed? settings.helperVariable with
      | none => .missingHelper
      | some v =>
        match (m.variableMembers v).firstMissing? with
        | some kind => .missingMember kind
        | none => .sound := by
  unfold diagnose
  rw [hx.exporting]
  dsimp only
  rw [hx.classExportedBy]
  dsimp only
  rw [hx.clause]
  dsimp only
  rw [if_neg fun h => hcount.elim h.1 fun hpolicy => hpolicy h.2]

/-! ### The second stage -/

/-- The first batch changes no answer of a look-up that does not concern the
    exported class and the name that exports it. -/
theorem ExportedClass.In.findSome?_kept {x : ExportedClass} (hm : m.Readable) (hx : x.In m)
    (hcomplete : CompleteComments comments) {m₁ : Module} {given : List Edit}
    (hgiven : given.Perm ((if x.exporting.start ≠ x.holding.start then
      [m.removeStatement x.exporting] else []) ++ x.edits comments))
    (happly : m.applyEdits given = .ok m₁) (hlocal : m₁.RereadsAs (m.expect (x.changes comments)))
    {α : Type} {φ : Tree → Option α} (hφ : AnswersParts φ)
    (hskips : ∀ t : Tree, t.unwrap.kind.isExported = true → φ t = none) :
    m₁.tree.parts.findSome? φ = m.tree.parts.findSome? φ := by
  obtain ⟨-, trees, htrees, hnodes⟩ := m.nodes_changes hm (ExportedClass.changes_fit hm hx)
    (ExportedClass.changes_rising hm hx) (ExportedClass.perm_changes hm hx hgiven) happly hlocal
  obtain ⟨hexporting, hholding⟩ := hx.isExported hm
  -- The former statements and the new class are of exported kinds, which have no answer.
  refine Module.findSome?_changes hφ hnodes (fun rn hrn hne => ?_) fun rn hrn edits es hg => ?_
  · unfold changes Module.changeBoth at hne
    split at hne
    · next hstart => exact hskips _ (m.node_eq_of_start hm hrn hx.holding_mem hstart ▸ hholding)
    · split at hne
      · next hstart =>
        exact hskips _ (m.node_eq_of_start hm hrn hx.exporting_mem hstart ▸ hexporting)
      · exact absurd rfl hne
  · obtain ⟨-, -, rfl⟩ := ExportedClass.changes_becomes hg
    intro t ht
    rcases ExportedClass.mem_declaredTrees hcomplete (htrees rn hrn _ _ hg) t ht with
      hpart | hdeclares
    · exact hφ t hpart
    · refine hskips t ?_
      rw [Kind.isExported, hdeclares.declared]
      rfl

/-- The second stage ends on the module of the first batch as it would end on
    the module before. -/
theorem extraction_diagnosed {x : ExportedClass} (hm : m.Readable) (hx : x.In m)
    (hcomplete : CompleteComments comments) {m₁ : Module} {given : List Edit}
    (hgiven : given.Perm ((if x.exporting.start ≠ x.holding.start then
      [m.removeStatement x.exporting] else []) ++ x.edits comments))
    (happly : m.applyEdits given = .ok m₁) (hlocal : m₁.RereadsAs (m.expect (x.changes comments)))
    (name : String) :
    (m₁.variableNamed? name = none ↔ m.variableNamed? name = none) ∧
      ∀ v₁ v, m₁.variableNamed? name = some v₁ → m.variableNamed? name = some v →
        mapEntries Node.tree (m₁.variableMembers v₁) =
          mapEntries Node.tree (m.variableMembers v) := by
  -- The first batch puts neither variables nor types into a module, and keeps those it has.
  have hvariable : ∀ name, (m₁.variableNamed? name).map (·.declarator.tree) =
      (m.variableNamed? name).map (·.declarator.tree) := by
    intro name
    rw [m₁.variableNamed?_tree, m.variableNamed?_tree]
    refine hx.findSome?_kept hm hcomplete hgiven happly hlocal (answersParts_variable name)
      fun t ht => ?_
    rw [(Kind.isExported_cases ht).2.1]
    rfl
  have htypes : ∀ name, (m₁.typeNamed? name).map Node.tree = (m.typeNamed? name).map Node.tree := by
    intro name
    rw [m₁.typeNamed?_tree, m.typeNamed?_tree]
    refine hx.findSome?_kept hm hcomplete hgiven happly hlocal (declaresParts_type.answers name)
      fun t ht => ?_
    rw [(Kind.isExported_cases ht).2.2.1]
    rfl
  constructor
  · rw [← Option.map_eq_none_iff (f := fun v : Variable => v.declarator.tree), hvariable,
      Option.map_eq_none_iff]
  · intro v₁ v hv₁ hv
    have hsame := hvariable name
    rw [hv₁, hv] at hsame
    exact Module.variableMembers_congr hv hv₁ htypes (Option.some.inj hsame)

/-! ### The whole pass -/

/-- Where the first stage has a plan, the diagnosis is the one of the second stage. -/
theorem diagnose_of_extractTypes (hcomplete : CompleteComments comments)
    (hlocal : ReadsNormalized comments settings m) {plan : Plan String} {m₁ : Module}
    (hplan : normalizeExport m comments settings = .ok plan)
    (happly : m.applyEdits plan.edits = .ok m₁) :
    match extractTypes m₁ settings with
    | .ok _ => diagnose m settings = .sound
    | .error f => ∀ b, (diagnose m settings).SaidBy settings.helperVariable (.failure f b) := by
  have hfirst := normalizeExport_ends m comments settings
  rw [hplan] at hfirst
  cases hfirst with
  | plans hx hcount _ hedits =>
  have hm := m.readable_of_statement hx.exporting_mem (Or.inr (List.find?_some hx.exporting))
  obtain ⟨hnone, hmembers⟩ := extraction_diagnosed hm hx hcomplete hedits happly
    (hlocal _ plan m₁ hx hplan happly) settings.helperVariable
  -- What is looked up after the first batch is what the module had before it.
  rw [diagnose_of_plan hx hcount]
  have hextract := extractTypes_ends m₁ settings
  generalize extractTypes m₁ settings = r at hextract ⊢
  cases hextract with
  | noHelper hhelper =>
    rw [hnone.mp hhelper]
    exact fun b => ⟨rfl, nofun⟩
  | @noMember v₁ hhelper kind hkind =>
    cases hv : m.variableNamed? settings.helperVariable with
    | none =>
      rw [hnone.mpr hv] at hhelper
      cases hhelper
    | some v =>
      dsimp only
      rw [← Members.firstMissing?_congr (hmembers v₁ v hhelper hv), hkind]
      refine fun b => ⟨rfl, fun kind' hkind' => ⟨_, b, rfl, ?_⟩⟩
      cases hkind'
      rfl
  | @plans v₁ hhelper hall plan htypes hedits =>
    cases hv : m.variableNamed? settings.helperVariable with
    | none =>
      rw [hnone.mpr hv] at hhelper
      cases hhelper
    | some v =>
      dsimp only
      rw [← Members.firstMissing?_congr (hmembers v₁ v hhelper hv), hall]

/-- The second stage fails as the diagnosis of the module that the pass was given says. -/
theorem said_of_extractTypes (hcomplete : CompleteComments comments)
    (hfirst : ReadsNormalized comments settings m) {plan : Plan String} {m₁ : Module}
    (hplan : normalizeExport m comments settings = .ok plan)
    (happly : m.applyEdits plan.edits = .ok m₁) {f : Failure}
    (hextract : extractTypes m₁ settings = .error f) (b : Bool) :
    (diagnose m settings).SaidBy settings.helperVariable (.failure f b) := by
  have hsaid := diagnose_of_extractTypes hcomplete hfirst hplan happly
  rw [hextract] at hsaid
  exact hsaid b

/-- A pass completes on a sound module only. -/
theorem Course.diagnosed (c : Course comments settings m) (hcomplete : CompleteComments comments)
    (hfirst : ReadsNormalized comments settings m) : diagnose m settings = .sound := by
  have hsound := diagnose_of_extractTypes hcomplete hfirst c.normalizes c.toNormalized
  rwa [c.extracts] at hsound

end ComponentDecl
