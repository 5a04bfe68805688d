import ComponentDecl.Proofs.Raw.Table
import ComponentDecl.Settings.Sources

/-! # The precedence of settings

    Each field is settled by itself: of the five sources the first one that defines the
    field counts, and without a definition the standard value does.  What the other sources
    hold for the field is never looked at, and no other field matters.

    Key theorem:
    - `Settings.Sources.load_settles`: what comes of the sources, field by field
-/

namespace ComponentDecl

open Text

namespace Settings

/-! ### The fields -/

/-- A field of the settings, with the type of its values. -/
inductive Field : Type → Type 1 where
  | helper : Field String
  | policy : Field ArgumentPolicy
  | rollback : Field Bool
  | width : Field Nat

namespace Field

variable {α : Type}

/-- The name of a field. -/
def name : {α : Type} → Field α → String
  | _, .helper => "helper_variable"
  | _, .policy => "type_argument_policy"
  | _, .rollback => "rollback_on_failure"
  | _, .width => "indent_width"

/-- The check of a field's values. -/
def check : {α : Type} → Field α → Raw → Except IssueKind α
  | _, .helper => checkHelper
  | _, .policy => checkPolicy
  | _, .rollback => checkFlag
  | _, .width => checkWidth

/-- What settings have chosen for a field. -/
def chosen : {α : Type} → Field α → Settings → α
  | _, .helper => helperVariable
  | _, .policy => argumentPolicy
  | _, .rollback => rollbackOnFailure
  | _, .width => indentWidth

/-- What a field comes to: the value that is given, once it is checked, or else the standard
    one. -/
def settle (f : Field α) : Option Raw → Except IssueKind α
  | none => .ok (f.chosen standard)
  | some value => f.check value

/-- The issues of a field. -/
def issues (f : Field α) (given : Option Raw) : List Issue :=
  match f.settle given with
  | .ok _ => []
  | .error kind => [⟨[f.name], kind⟩]

theorem name_mem (f : Field α) : f.name ∈ fieldNames := by
  cases f <;> decide

theorem mem_issues {f : Field α} {given : Option Raw} {i : Issue} :
    i ∈ f.issues given ↔ ∃ kind, f.settle given = .error kind ∧ i = ⟨[f.name], kind⟩ := by
  unfold issues
  cases f.settle given with
  | ok v => simp
  | error kind => simp

theorem issues_eq_nil {f : Field α} {given : Option Raw} :
    f.issues given = [] ↔ ∃ v, f.settle given = .ok v := by
  unfold issues
  cases f.settle given <;> simp

end Field

/-- The issues of all fields, in their order. -/
def fieldIssues (given : String → Option Raw) : List Issue :=
  Field.helper.issues (given Field.helper.name) ++ (Field.policy.issues (given Field.policy.name) ++
    (Field.rollback.issues (given Field.rollback.name) ++
      Field.width.issues (given Field.width.name)))

/-- An issue is that of one of the fields. -/
theorem mem_fieldIssues {given : String → Option Raw} {i : Issue} :
    i ∈ fieldIssues given ↔ ∃ (α : Type) (f : Field α) (kind : IssueKind),
      f.settle (given f.name) = .error kind ∧ i = ⟨[f.name], kind⟩ := by
  simp only [fieldIssues, List.mem_append, Field.mem_issues]
  constructor
  · rintro (⟨kind, h⟩ | ⟨kind, h⟩ | ⟨kind, h⟩ | ⟨kind, h⟩)
    · exact ⟨_, .helper, kind, h⟩
    · exact ⟨_, .policy, kind, h⟩
    · exact ⟨_, .rollback, kind, h⟩
    · exact ⟨_, .width, kind, h⟩
  · rintro ⟨α, f, kind, h⟩
    cases f with
    | helper => exact Or.inl ⟨kind, h⟩
    | policy => exact Or.inr (Or.inl ⟨kind, h⟩)
    | rollback => exact Or.inr (Or.inr (Or.inl ⟨kind, h⟩))
    | width => exact Or.inr (Or.inr (Or.inr ⟨kind, h⟩))

/-! ### The check of a table -/

end Settings

namespace Checked

variable {α β : Type}

/-- The issues that were found in the place of a value. -/
def issues : Checked α → List Issue
  | .ok _ => []
  | .error is => is

theorem issues_both (a : Checked α) (b : Checked β) : (a.both b).issues = a.issues ++ b.issues := by
  cases a <;> cases b <;> simp [both, issues]

theorem issues_map (f : α → β) (a : Checked α) : Checked.issues (a.map f) = a.issues := by
  cases a <;> rfl

theorem both_eq_ok {a : Checked α} {b : Checked β} {x : α × β} :
    a.both b = .ok x ↔ a = .ok x.1 ∧ b = .ok x.2 := by
  cases a <;> cases b <;> simp [both, Prod.ext_iff]

end Checked

namespace Settings

/-- A field of a table, checked. -/
def checkedField {α : Type} (entries : List (String × Raw)) (f : Field α) : Checked α :=
  checkField entries f.name f.check (f.chosen standard)

theorem checkedField_eq {α : Type} (entries : List (String × Raw)) (f : Field α) :
    checkedField entries f =
      (f.settle (Raw.lookup? entries f.name)).mapError fun kind => [⟨[f.name], kind⟩] := by
  unfold checkedField checkField
  cases Raw.lookup? entries f.name <;> rfl

theorem mapError_eq_ok {ε ε' α : Type} {f : ε → ε'} {r : Except ε α} {v : α} :
    r.mapError f = .ok v ↔ r = .ok v := by
  cases r with
  | error e => exact ⟨nofun, nofun⟩
  | ok w => exact ⟨fun h => congrArg _ (Except.ok.inj h), fun h => congrArg _ (Except.ok.inj h)⟩

theorem mapError_eq_error {ε ε' α : Type} {f : ε → ε'} {r : Except ε α} {e' : ε'} :
    r.mapError f = .error e' ↔ ∃ e, r = .error e ∧ e' = f e := by
  cases r with
  | error e =>
    constructor
    · exact fun h => ⟨e, rfl, (Except.error.inj h).symm⟩
    · rintro ⟨_, h, rfl⟩
      cases h
      rfl
  | ok w => exact ⟨nofun, fun ⟨_, h, _⟩ => nomatch h⟩

theorem checkedField_eq_ok {α : Type} {entries : List (String × Raw)} {f : Field α} {v : α} :
    checkedField entries f = .ok v ↔ f.settle (Raw.lookup? entries f.name) = .ok v := by
  rw [checkedField_eq, mapError_eq_ok]

theorem issues_checkedField {α : Type} (entries : List (String × Raw)) (f : Field α) :
    (checkedField entries f).issues = f.issues (Raw.lookup? entries f.name) := by
  rw [checkedField_eq, Field.issues]
  cases f.settle (Raw.lookup? entries f.name) <;> rfl

/-- A table of fields is checked field by field. -/
theorem check_eq {entries : List (String × Raw)} (hnames : ∀ e ∈ entries, e.1 ∈ fieldNames) :
    check entries = (((checkedField entries .helper).both ((checkedField entries .policy).both
      ((checkedField entries .rollback).both ((checkedField entries .width).both (.ok ()))))).map
        fun (h, p, r, w, _) => ⟨h, p, r, w⟩) := by
  have hnone : checkNames entries = .ok () := by
    have hfilter : (entries.filter fun e => !fieldNames.contains e.1) = [] := by
      refine List.filter_eq_nil_iff.mpr fun e he => ?_
      simp [hnames e he]
    rw [checkNames, hfilter]
  rw [← hnone]
  rfl

theorem check_eq_ok {entries : List (String × Raw)} (hnames : ∀ e ∈ entries, e.1 ∈ fieldNames)
    {settings : Settings} : check entries = .ok settings ↔ ∀ (α : Type) (f : Field α),
      f.settle (Raw.lookup? entries f.name) = .ok (f.chosen settings) := by
  have hmap : ∀ {c : Checked (String × ArgumentPolicy × Bool × Nat × Unit)},
      (c.map fun (h, p, r, w, _) => (⟨h, p, r, w⟩ : Settings)) = .ok settings ↔
        c = .ok (settings.helperVariable, settings.argumentPolicy, settings.rollbackOnFailure,
          settings.indentWidth, ()) := by
    intro c
    cases c with
    | error is => simp [Except.map]
    | ok v =>
      obtain ⟨h, p, r, w, u⟩ := v
      cases settings
      simp [Except.map]
  rw [check_eq hnames, hmap]
  simp only [Checked.both_eq_ok, checkedField_eq_ok]
  constructor
  · rintro ⟨h, p, r, w, -⟩ α f
    cases f with
    | helper => exact h
    | policy => exact p
    | rollback => exact r
    | width => exact w
  · exact fun h => ⟨h _ .helper, h _ .policy, h _ .rollback, h _ .width, trivial⟩

theorem issues_check {entries : List (String × Raw)} (hnames : ∀ e ∈ entries, e.1 ∈ fieldNames) :
    (check entries).issues = fieldIssues (Raw.lookup? entries) := by
  rw [check_eq hnames, Checked.issues_map]
  simp only [Checked.issues_both, issues_checkedField]
  rw [fieldIssues, Checked.issues, List.append_nil]

/-- A table of fields is refused for the issues of its fields, and only if there are any. -/
theorem check_eq_error {entries : List (String × Raw)} (hnames : ∀ e ∈ entries, e.1 ∈ fieldNames)
    {is : List Issue} :
    check entries = .error is ↔ is = fieldIssues (Raw.lookup? entries) ∧ is ≠ [] := by
  have hissues := issues_check hnames
  constructor
  · intro h
    rw [h] at hissues
    refine ⟨hissues, fun hnil => ?_⟩
    -- Without issues every field comes to a value, and those make settings.
    have hnone : fieldIssues (Raw.lookup? entries) = [] := hissues.symm.trans hnil
    simp only [fieldIssues, List.append_eq_nil_iff, Field.issues_eq_nil] at hnone
    obtain ⟨⟨helper, h₁⟩, ⟨policy, h₂⟩, ⟨rollback, h₃⟩, width, h₄⟩ := hnone
    have hok : check entries = .ok ⟨helper, policy, rollback, width⟩ := by
      refine (check_eq_ok hnames).mpr fun α f => ?_
      cases f with
      | helper => exact h₁
      | policy => exact h₂
      | rollback => exact h₃
      | width => exact h₄
    rw [hok] at h
    cases h
  · rintro ⟨rfl, hne⟩
    cases h : check entries with
    | ok settings =>
      rw [h] at hissues
      exact absurd hissues.symm hne
    | error is =>
      rw [h] at hissues
      rw [← hissues, Checked.issues]

/-! ### What the sources say -/

/-- The value of the last entry whose name is meant. -/
def lastValue? {α : Type} (isMeant : String → Bool) (entries : List (String × α)) : Option α :=
  (entries.reverse.find? fun e => isMeant e.1).map (·.2)

/-- Holds of the names of the variables that stand for a field, in small letters or in
    capitals. -/
def standsFor (lead field name : String) : Bool := lower name == lower lead ++ field

/-- The entries of the files that hold tables. -/
structure Tables where
  toml : List (String × Raw)
  json : List (String × Raw)

namespace Sources

/-- The variables that the file of variables defines. -/
def fileVariables (s : Sources) : List Raw.VariableFile.Binding :=
  match s.variableFile with
  | none => []
  | some text => Raw.VariableFile.read s.environment text

/-- Holds of the entries that the files hold.  Where there is no file, there are none.  A JSON
    file may also list its entries as pairs; one that holds no entries at all is refused. -/
structure Hold (s : Sources) (t : Tables) : Prop where
  toml : (s.tomlFile.map Raw.Toml.read?).getD (some []) = some t.toml
  json : ((s.jsonFile.map Raw.Json.read?).getD (some (.table []))).bind entries? = some t.json

/-- Holds of sources without unknown names.  A variable in the file that has no value, or the
    plain name of a field where there is a prefix, does not count. -/
structure NameFields (s : Sources) (t : Tables) : Prop where
  arguments : ∀ e ∈ s.arguments, e.1 ∈ fieldNames
  bindings : ∀ b ∈ s.fileVariables, ∀ v, b.2 = some v → v ≠ "" →
    (∃ field ∈ fieldNames, standsFor s.lead field b.1 = true) ∨
      s.lead ≠ "" ∧ lower b.1 ∈ fieldNames
  toml : ∀ e ∈ t.toml, lower e.1 ∈ fieldNames
  json : ∀ e ∈ t.json, lower e.1 ∈ fieldNames

/-- The definitions of a field in the five sources, the source that counts first in front. -/
def definitions (s : Sources) (t : Tables) (field : String) : List (Option Raw) :=
  [lastValue? (· == field) s.arguments,
    (lastValue? (standsFor s.lead field) s.environment).map .text,
    (lastValue? (standsFor s.lead field) s.fileVariables).join.map .text,
    lastValue? (lower · == field) t.toml,
    lastValue? (lower · == field) t.json]

/-- The value that counts for a field, if there is one. -/
def given? (s : Sources) (t : Tables) (field : String) : Option Raw :=
  (s.definitions t field).findSome? id

theorem given?_eq (s : Sources) (t : Tables) (field : String) :
    s.given? t field = (lastValue? (· == field) s.arguments).or
      (((lastValue? (standsFor s.lead field) s.environment).map .text).or
        (((lastValue? (standsFor s.lead field) s.fileVariables).join.map .text).or
          ((lastValue? (lower · == field) t.toml).or
            ((lastValue? (lower · == field) t.json).or none)))) := by
  have key : ∀ (o : Option Raw) (os : List (Option Raw)),
      (o :: os).findSome? id = o.or (os.findSome? id) := by
    intro o os
    cases o <;> rfl
  simp only [given?, definitions, key]
  rfl

end Sources

/-! ### One source -/

theorem lookup?_reverse_map {α : Type} (rename : String → String) (entries : List (String × α))
    (name : String) : Raw.lookup? (entries.map fun e => (rename e.1, e.2)).reverse name =
      lastValue? (rename · == name) entries := by
  rw [Raw.lookup?, ← List.map_reverse, List.find?_map, lastValue?, Option.map_map]
  rfl

/-- Names with their own values. -/
theorem lookup?_filterMap {α : Type} (names : List String) (value? : String → Option α)
    {name : String} (h : name ∈ names) :
    Raw.lookup? (names.filterMap fun n => (value? n).map (n, ·)) name = value? name := by
  have key : Raw.lookup? (names.filterMap fun n => (value? n).map (n, ·)) name =
      if name ∈ names then value? name else none := by
    clear h
    induction names with
    | nil => rfl
    | cons n names ih =>
      rw [List.filterMap_cons]
      cases hvalue : value? n with
      | none =>
        by_cases hn : name = n
        · subst hn
          simp [ih, hvalue]
        · simp [ih, hn]
      | some v =>
        rw [Option.map_some, Raw.lookup?_cons, ih]
        by_cases hn : name = n
        · subst hn
          simp [hvalue]
        · simp [hn, Ne.symm hn]
  rw [key, if_pos h]

/-- Variables define a field by the last one that stands for it. -/
theorem ofVariables_eq (lead : String) (bindings : List (String × Option String)) :
    ofVariables lead bindings = fieldNames.filterMap fun field =>
      ((lastValue? (standsFor lead field) bindings).join.map Raw.text).map (field, ·) := by
  unfold ofVariables
  dsimp only
  congr 1
  funext field
  have hlast : Raw.lookup? (Raw.distinct (bindings.map fun e => (lower e.1, e.2)))
      (lower lead ++ field) = lastValue? (standsFor lead field) bindings := by
    rw [Raw.lookup?_distinct, lookup?_reverse_map]
    rfl
  rw [hlast]
  cases (lastValue? (standsFor lead field) bindings).join <;> rfl

theorem lookup?_ofVariables (lead : String) (bindings : List (String × Option String))
    {field : String} (h : field ∈ fieldNames) :
    Raw.lookup? (ofVariables lead bindings) field =
      (lastValue? (standsFor lead field) bindings).join.map .text := by
  rw [ofVariables_eq, lookup?_filterMap _ _ h]

/-- Variables define each field once, and nothing else. -/
theorem names_ofVariables (lead : String) (bindings : List (String × Option String)) :
    ((ofVariables lead bindings).map (·.1)).Sublist fieldNames := by
  rw [ofVariables_eq]
  induction fieldNames with
  | nil => exact List.Sublist.refl _
  | cons field fields ih =>
    rw [List.filterMap_cons]
    cases (lastValue? (standsFor lead field) bindings).join with
    | none => exact ih.cons _
    | some v => exact ih.cons_cons _

theorem lookup?_ofEnvironment (lead : String) (environment : List (String × String))
    {field : String} (h : field ∈ fieldNames) :
    Raw.lookup? (ofEnvironment lead environment) field =
      (lastValue? (standsFor lead field) environment).map .text := by
  have hlast : lastValue? (standsFor lead field) (environment.map fun e => (e.1, some e.2)) =
      (lastValue? (standsFor lead field) environment).map some := by
    rw [lastValue?, ← List.map_reverse, List.find?_map, lastValue?, Option.map_map, Option.map_map]
    rfl
  rw [ofEnvironment, lookup?_ofVariables _ _ h]
  show Option.map _ (lastValue? _ (environment.map fun e => (e.1, some e.2))).join = _
  rw [hlast]
  cases lastValue? (standsFor lead field) environment <;> rfl

/-- A file of variables without unknown names defines fields and nothing else. -/
theorem ofVariableFile_eq {lead : String} {bindings : List (String × Option String)}
    (h : ∀ b ∈ bindings, ∀ v, b.2 = some v → v ≠ "" →
      (∃ field ∈ fieldNames, standsFor lead field b.1 = true) ∨
        lead ≠ "" ∧ lower b.1 ∈ fieldNames) :
    ofVariableFile lead bindings = ofVariables lead bindings := by
  unfold ofVariableFile
  dsimp only
  refine (congrArg _ (List.filterMap_eq_nil_iff.mpr ?_)).trans (List.append_nil _)
  rintro ⟨name, value⟩ he
  have hmem : (name, value) ∈ bindings.map fun e => (lower e.1, e.2) :=
    (Raw.mem_foldl_put he).resolve_right List.not_mem_nil
  obtain ⟨b, hb, hbe⟩ := List.mem_map.mp hmem
  obtain ⟨rfl, rfl⟩ := Prod.mk.inj hbe
  cases hvalue : b.2 with
  | none => rfl
  | some v =>
    dsimp only
    -- What is left out: empty values, variables of fields and plain names of fields.
    by_cases hempty : v = ""
    · simp [hempty]
    · rcases h b hb v hvalue hempty with ⟨field, hfield, hstands⟩ | ⟨hlead, hplain⟩
      · have hany : (fieldNames.any fun field => lower b.1 == lower lead ++ field) = true :=
          List.any_eq_true.mpr ⟨field, hfield, hstands⟩
        rw [hany, Bool.or_true, Bool.true_or, if_pos rfl]
      · simp [hlead, hplain]

/-- A table of fields answers for a field by its last entry of that name. -/
theorem lookup?_ofTable {entries : List (String × Raw)}
    (h : ∀ e ∈ entries, lower e.1 ∈ fieldNames) (field : String) :
    Raw.lookup? (ofTable entries) field = lastValue? (lower · == field) entries := by
  have hnames : (entries.map fun e =>
      (if fieldNames.contains (lower e.1) then lower e.1 else e.1, e.2)) =
      entries.map fun e => (lower e.1, e.2) := by
    refine List.map_congr_left fun e he => ?_
    simp [h e he]
  show Raw.lookup? (Raw.distinct (entries.map fun e =>
    (if fieldNames.contains (lower e.1) then lower e.1 else e.1, e.2))) field = _
  rw [hnames, Raw.lookup?_distinct, lookup?_reverse_map]

theorem nodup_ofTable (entries : List (String × Raw)) :
    ((ofTable entries).map (·.1)).Nodup :=
  Raw.nodup_distinct _

theorem mem_ofTable {entries : List (String × Raw)} (h : ∀ e ∈ entries, lower e.1 ∈ fieldNames) :
    ∀ e ∈ ofTable entries, e.1 ∈ fieldNames := by
  intro e he
  have hmem := (Raw.mem_foldl_put he).resolve_right List.not_mem_nil
  obtain ⟨f, hf, rfl⟩ := List.mem_map.mp hmem
  simp [h f hf]

/-! ### All sources -/

/-- A source without two entries of one name counts before the weaker ones. -/
theorem lookup?_override {source : Source} (h : (source.map (·.1)).Nodup) (weaker : Source)
    (name : String) : Raw.lookup? (override source weaker) name =
      (Raw.lookup? source name).or (Raw.lookup? weaker name) := by
  rw [override, Raw.lookup?_foldl_put, Raw.lookup?_reverse h]

namespace Sources

variable {s : Sources} {t : Tables}

/-- A missing file is one without entries. -/
theorem toml_eq (hhold : s.Hold t) : s.toml = .ok (ofTable t.toml) := by
  have h := hhold.toml
  unfold toml
  cases hfile : s.tomlFile with
  | none =>
    rw [hfile] at h
    rw [← Option.some.inj h]
    rfl
  | some text =>
    rw [hfile] at h
    have h : Raw.Toml.read? text = some t.toml := h
    simp only [h]

theorem json_eq (hhold : s.Hold t) : s.json = .ok (ofTable t.json) := by
  have h := hhold.json
  unfold json
  cases hfile : s.jsonFile with
  | none =>
    rw [hfile] at h
    rw [← Option.some.inj h]
    rfl
  | some text =>
    rw [hfile] at h
    obtain ⟨value, hvalue, hentries⟩ :
        ∃ value, Raw.Json.read? text = some value ∧ entries? value = some t.json :=
      Option.bind_eq_some_iff.mp h
    simp only [hvalue, hentries]

theorem fromVariableFile_eq (hknown : s.NameFields t) :
    s.fromVariableFile = ofVariables s.lead s.fileVariables := by
  have h := hknown.bindings
  unfold fromVariableFile
  unfold fileVariables at h ⊢
  cases hfile : s.variableFile with
  | none =>
    rw [ofVariables_eq]
    rfl
  | some text =>
    rw [hfile] at h
    exact ofVariableFile_eq h

/-- The sources are merged into a table of fields that answers with the values that
    count. -/
theorem merged_eq (hhold : s.Hold t) (hknown : s.NameFields t) :
    ∃ entries, s.merged = .ok entries ∧ (∀ e ∈ entries, e.1 ∈ fieldNames) ∧
      ∀ field ∈ fieldNames, Raw.lookup? entries field = s.given? t field := by
  refine ⟨override s.arguments (override (ofEnvironment s.lead s.environment)
    (override (ofVariables s.lead s.fileVariables) (override (ofTable t.toml)
      (override (ofTable t.json) [])))),
    by rw [merged, toml_eq hhold, json_eq hhold, fromVariableFile_eq hknown]; rfl, ?_, ?_⟩
  · have hvariables : ∀ bindings, ∀ e ∈ ofVariables s.lead bindings, e.1 ∈ fieldNames :=
      fun bindings e he => (names_ofVariables s.lead bindings).subset (List.mem_map_of_mem he)
    intro e he
    rcases Raw.mem_foldl_put he with he | he
    · exact hknown.arguments e he
    rcases Raw.mem_foldl_put he with he | he
    · exact hvariables _ e he
    rcases Raw.mem_foldl_put he with he | he
    · exact hvariables _ e he
    rcases Raw.mem_foldl_put he with he | he
    · exact mem_ofTable hknown.toml e he
    · exact mem_ofTable hknown.json e ((Raw.mem_foldl_put he).resolve_right List.not_mem_nil)
  · intro field hfield
    have hfields : fieldNames.Nodup := by decide
    have hvariables : ∀ bindings, ((ofVariables s.lead bindings).map (·.1)).Nodup :=
      fun bindings => (names_ofVariables s.lead bindings).nodup hfields
    have hnil : Raw.lookup? ([] : Source) field = none := rfl
    rw [override, Raw.lookup?_foldl_put, ofEnvironment, lookup?_override (hvariables _),
      ← ofEnvironment, lookup?_ofEnvironment _ _ hfield,
      lookup?_override (hvariables _), lookup?_ofVariables _ _ hfield,
      lookup?_override (nodup_ofTable _), lookup?_ofTable hknown.toml,
      lookup?_override (nodup_ofTable _), lookup?_ofTable hknown.json, hnil, given?_eq]
    rfl

/-- What comes of the sources is what comes of the table of the values that count. -/
theorem load_eq (hhold : s.Hold t) (hknown : s.NameFields t) :
    ∃ entries, s.load = (check entries).mapError .issues ∧ (∀ e ∈ entries, e.1 ∈ fieldNames) ∧
      ∀ (α : Type) (f : Field α), Raw.lookup? entries f.name = s.given? t f.name := by
  obtain ⟨entries, hmerged, hnames, hlookup⟩ := merged_eq hhold hknown
  exact ⟨entries, by rw [load, hmerged], hnames, fun _ f => hlookup f.name f.name_mem⟩

theorem load_eq_ok (hhold : s.Hold t) (hknown : s.NameFields t) {settings : Settings} :
    s.load = .ok settings ↔
      ∀ (α : Type) (f : Field α), f.settle (s.given? t f.name) = .ok (f.chosen settings) := by
  obtain ⟨entries, hload, hnames, hlookup⟩ := load_eq hhold hknown
  rw [hload, mapError_eq_ok, check_eq_ok hnames]
  simp only [hlookup]

theorem load_eq_error (hhold : s.Hold t) (hknown : s.NameFields t) {e : LoadError} :
    s.load = .error e ↔ e = .issues (fieldIssues (s.given? t)) ∧ fieldIssues (s.given? t) ≠ [] := by
  obtain ⟨entries, hload, hnames, hlookup⟩ := load_eq hhold hknown
  have hissues : fieldIssues (Raw.lookup? entries) = fieldIssues (s.given? t) := by
    simp only [fieldIssues, hlookup]
  simp only [hload, mapError_eq_error, check_eq_error hnames, hissues]
  constructor
  · rintro ⟨_, ⟨rfl, hne⟩, rfl⟩
    exact ⟨rfl, hne⟩
  · rintro ⟨rfl, hne⟩
    exact ⟨_, ⟨rfl, hne⟩, rfl⟩

/-- Holds of sources that are refused for a field, whatever else is wrong with them. -/
def Refuses {α : Type} (s : Sources) (f : Field α) (kind : IssueKind) : Prop :=
  ∃ is, s.load = .error (.issues is) ∧ ⟨[f.name], kind⟩ ∈ is

/-- A field is refused for the value that counts, and for nothing else. -/
theorem refuses_iff (hhold : s.Hold t) (hknown : s.NameFields t) {α : Type} {f : Field α}
    {kind : IssueKind} : s.Refuses f kind ↔ f.settle (s.given? t f.name) = .error kind := by
  have hmem : ⟨[f.name], kind⟩ ∈ fieldIssues (s.given? t) ↔
      f.settle (s.given? t f.name) = .error kind := by
    refine mem_fieldIssues.trans ⟨?_, fun h => ⟨α, f, kind, h, rfl⟩⟩
    rintro ⟨β, g, kind', h, hissue⟩
    obtain ⟨hname, rfl⟩ := Issue.mk.inj hissue
    have hname : f.name = g.name := (List.cons.inj hname).1
    cases f <;> cases g <;> first | exact h | exact absurd hname (by decide)
  rw [← hmem]
  constructor
  · rintro ⟨is, hload, h⟩
    obtain ⟨his, -⟩ := (load_eq_error hhold hknown).mp hload
    exact LoadError.issues.inj his ▸ h
  · exact fun h => ⟨_, (load_eq_error hhold hknown).mpr ⟨rfl, List.ne_nil_of_mem h⟩, h⟩

/-- What comes of the sources, field by field: of the values for a field the one of the first
    source counts, and without any the standard one.  Where each field comes to a value, those
    are the settings.  Otherwise there are issues, and each is that of a field whose value fails
    the field's own check.  So no matter what else two groups of sources hold, for a field for
    which the same value counts the outcome is the same. -/
theorem load_settles (hhold : s.Hold t) (hknown : s.NameFields t) :
    (∀ settings : Settings, s.load = .ok settings ↔
      ∀ (α : Type) (f : Field α), f.settle (s.given? t f.name) = .ok (f.chosen settings)) ∧
    (∀ (α : Type) (f : Field α) (kind : IssueKind),
      s.Refuses f kind ↔ f.settle (s.given? t f.name) = .error kind) ∧
    (∀ e : LoadError, s.load = .error e → ∃ is, e = .issues is ∧ is ≠ [] ∧
      ∀ i ∈ is, ∃ (α : Type) (f : Field α) (kind : IssueKind),
        i = ⟨[f.name], kind⟩ ∧ s.Refuses f kind) ∧
    ∀ (s' : Sources) (t' : Tables), s'.Hold t' → s'.NameFields t' → ∀ (α : Type) (f : Field α),
      s'.given? t' f.name = s.given? t f.name →
        (∀ kind, s'.Refuses f kind ↔ s.Refuses f kind) ∧
        ∀ settings settings' : Settings, s.load = .ok settings → s'.load = .ok settings' →
          f.chosen settings' = f.chosen settings := by
  refine ⟨fun settings => load_eq_ok hhold hknown, fun α f kind => refuses_iff hhold hknown, ?_, ?_⟩
  · intro e hload
    obtain ⟨rfl, hne⟩ := (load_eq_error hhold hknown).mp hload
    refine ⟨_, rfl, hne, fun i hi => ?_⟩
    obtain ⟨α, f, kind, hsettle, rfl⟩ := mem_fieldIssues.mp hi
    exact ⟨α, f, kind, rfl, (refuses_iff hhold hknown).mpr hsettle⟩
  · intro s' t' hhold' hknown' α f hgiven
    refine ⟨fun kind => ?_, fun settings settings' h h' => ?_⟩
    · rw [refuses_iff hhold' hknown', refuses_iff hhold hknown, hgiven]
    · have hsettle := (load_eq_ok hhold hknown).mp h α f
      have hsettle' := (load_eq_ok hhold' hknown').mp h' α f
      rw [hgiven, hsettle] at hsettle'
      exact (Except.ok.inj hsettle').symm

/-- Sources that all define something, some of it faulty but shadowed. -/
def shadowing : Sources where
  lead := "SVELTEDTS_"
  arguments := [("rollback_on_failure", .bool false)]
  environment := [("sveltedts_Indent_Width", "2")]
  variableFile := some "SVELTEDTS_INDENT_WIDTH=wide\nSVELTEDTS_HELPER_VARIABLE=__a\n"
  tomlFile := some "helper_variable = 3\ntype_argument_policy = \"error\"\n"
  jsonFile := some "\x7b\"indent_width\": -1, \"type_argument_policy\": \"never\"\x7d"

/-- The tables in the files of `shadowing`. -/
def shadowingTables : Tables where
  toml := [("helper_variable", .int 3), ("type_argument_policy", .text "error")]
  json := [("indent_width", .int (-1)), ("type_argument_policy", .text "never")]

theorem load_shadowing : shadowing.load = .ok ⟨"__a", .error, false, 2⟩ := by
  have hvariables : shadowing.fileVariables =
    [("SVELTEDTS_INDENT_WIDTH", some "wide"), ("SVELTEDTS_HELPER_VARIABLE", some "__a")] := rfl
  have hhold : shadowing.Hold shadowingTables := ⟨rfl, rfl⟩
  have hknown : shadowing.NameFields shadowingTables := by
    refine ⟨by decide, ?_, by decide, by decide⟩
    rw [hvariables]
    decide
  refine ((load_settles hhold hknown).1 _).mpr fun α f => ?_
  cases f <;> rfl

end Sources

end Settings

end ComponentDecl
