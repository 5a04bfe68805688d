import ComponentDecl.Proofs.Module.Reread
import ComponentDecl.Proofs.Pass.Course

/-! # The exported class

    The first stage looks for the class that a module exports as its own: the
    class stands in the exporting statement, or that statement names it and it
    stands elsewhere.  All that the stage plans follows from where they stand.

    Key theorem:
    - `normalizeExport_ends`: how the first stage ends, and on which modules
-/

namespace ComponentDecl

open Syntax

variable {m : Module} {comments : Option Comments} {settings : Settings}

/-! ### Where the class stands -/

/-- What a statement exports. -/
def Syntax.Node.exported? (stmt : Node) : Option Node :=
  (stmt.child? .declaration).or (stmt.child? .value)

/-- A statement that exports a construct holds that construct, or a decorator
    before it. -/
theorem Syntax.Tree.unwrap_of_exported {t e : Tree} (hkind : t.kind = .exportStatement)
    (hled : ValueLed t.children) (he : (t.child? .declaration).or (t.child? .value) = some e)
    (hplain : e.kind.isWrapper = false) (hpart : e.isPart = true) :
    t.unwrap = e ∨ t.unwrap.kind = .decorator := by
  have hwrapper : t.kind.isWrapper = true := by
    rw [hkind]
    rfl
  rcases Option.or_eq_some_iff.mp he with hdeclaration | ⟨hnone, hvalue⟩
  · exact Or.inl (unwrap_of_wrapper hwrapper (by rw [hdeclaration]; rfl) hplain)
  obtain ⟨before, v, after, hchildren, hrole, hblank, hbefore⟩ : ∃ before v after,
      t.children = before ++ v :: after ∧ v.role = some .value ∧ v.kind ≠ .blank ∧
        ∀ u ∈ before, LeadsExport u := by
    refine hled.resolve_left fun hno => ?_
    have hmem := List.mem_filter.mp (List.mem_of_find?_eq_some hvalue)
    have hrole := List.find?_some hvalue
    exact hno e hmem.1 (beq_iff_eq.mp hrole)
  have hv : v = e := by
    have hskip : (before.filter (·.kind ≠ .blank)).find? (·.role == some .value) = none := by
      refine List.find?_eq_none.mpr fun u hu => ?_
      rw [(hbefore u (List.mem_filter.mp hu).1).1]
      decide
    rw [child?, nodes, hchildren, List.filter_append, List.filter_cons_of_pos (by simpa using hblank),
      List.find?_append, hskip, Option.none_or,
      List.find?_cons_of_pos (by rw [hrole]; decide)] at hvalue
    exact Option.some.inj hvalue
  subst hv
  -- Before the value only decorators are parts.
  have hparts : t.parts = (before.filter (·.kind ≠ .blank)).filter isPart ++
      v :: (after.filter (·.kind ≠ .blank)).filter isPart := by
    rw [parts, nodes, hchildren, List.filter_append, List.filter_cons_of_pos (by simpa using hblank),
      List.filter_append, List.filter_cons_of_pos hpart]
  cases hdecorators : (before.filter (·.kind ≠ .blank)).filter isPart with
  | nil =>
    refine Or.inl (unwrap_of_wrapper hwrapper ?_ hplain)
    rw [hnone, hparts, hdecorators]
    rfl
  | cons d ds =>
    have hd : d ∈ (before.filter (·.kind ≠ .blank)).filter isPart := by
      rw [hdecorators]
      exact List.mem_cons_self
    obtain ⟨hd, hdpart⟩ := List.mem_filter.mp hd
    have hkinds := (hbefore d (List.mem_filter.mp hd).1).2
    have hdkind : d.kind = .decorator := by
      rcases hkinds with h | h | h | h
      · simp [isPart, h, Kind.isNamed] at hdpart
      · simp [isPart, h] at hdpart
      · simp [isPart, h, Kind.isNamed] at hdpart
      · exact h
    refine Or.inr ?_
    have hinner : (t.child? .declaration).or t.parts.head? = some d := by
      rw [hnone, hparts, hdecorators]
      rfl
    rw [unwrap_of_wrapper hwrapper hinner (by rw [hdkind]; rfl)]
    exact hdkind

/-- An exported class: the statement that exports it, the statement that holds
    it, the class with its name, and the clause that names its base. -/
structure ExportedClass where
  exporting : Node
  holding : Node
  cls : Node
  name : String
  clause : Node

/-- Holds of the class that a statement exports, given the statement that holds
    the class: the exporting statement itself, or one that is found by name. -/
inductive Exports (m : Module) (exporting : Node) : Node → Node → Prop where
  | itself {cls : Node} (h : exporting.exported? = some cls) : Exports m exporting exporting cls
  | named {e stmt cls : Node} (h : exporting.exported? = some e) (he : e.kind = .identifier)
    (hcls : m.classNamed? e.text = some cls) (hstmt : stmt ∈ m.statements)
    (hunwrap : stmt.unwrap = cls) : Exports m exporting stmt cls

/-- Holds of the class that a module exports as its own. -/
structure ExportedClass.In (x : ExportedClass) (m : Module) : Prop where
  exporting : m.statements.find? (·.isDefaultExport) = some x.exporting
  exports : Exports m x.exporting x.holding x.cls
  kind : x.cls.kind.isClass = true
  name : x.cls.name? = some x.name
  clause : x.cls.extendsClause? = some x.clause

theorem declarationNamed?_not_class {name : String} {d : Declared}
    (h : m.declarationNamed? name = some d) (hnone : m.classNamed? name = none) :
    d.declaration.kind.isClass = false := by
  obtain ⟨stmt, hstmt, hd⟩ := List.exists_of_findSome?_eq_some h
  dsimp only at hd
  split at hd
  · cases hd
  split at hd
  · obtain ⟨v, hv, rfl⟩ := Option.map_eq_some_iff.mp hd
    have hkind := (List.mem_filter.mp (List.mem_of_find?_eq_some hv)).2
    rw [beq_iff_eq] at hkind
    rw [hkind]
    rfl
  · split at hd
    · next hname =>
      obtain rfl := Option.some.inj hd
      have hfirst := List.findSome?_eq_none_iff.mp hnone stmt hstmt
      by_contra hclass
      rw [Bool.not_eq_false] at hclass
      simp [hclass, hname] at hfirst
    · cases hd

/-- What an exported name stands for. -/
def Module.namedExport? (m : Module) (e : Node) : Option Declared :=
  if e.kind = .identifier then
    match m.classNamed? e.text with
    | some c => some ⟨c.topLevel, c⟩
    | none => m.declarationNamed? e.text
  else none

theorem defaultExport?_eq (m : Module) :
    m.defaultExport? = (m.statements.find? (·.isDefaultExport)).map fun stmt =>
      match stmt.exported?.bind m.namedExport? with
      | some d => ⟨stmt, some d.declaration, some d.statement⟩
      | none => ⟨stmt, stmt.exported?, stmt.exported?.map fun _ => stmt⟩ := rfl

/-- An exported class stands in the exporting statement, or is found by the name
    that the statement exports. -/
theorem exports_of_defaultExport? {exported : DefaultExport} {cls : Node}
    (h : m.defaultExport? = some exported) (hcls : exported.declaration = some cls)
    (hkind : cls.kind.isClass = true) :
    m.statements.find? (·.isDefaultExport) = some exported.statement ∧
      Exports m exported.statement
        (exported.declarationStatement.getD exported.statement) cls := by
  rw [defaultExport?_eq] at h
  obtain ⟨stmt, hstmt, hexported⟩ := Option.map_eq_some_iff.mp h
  -- The class is declared where it is exported, or elsewhere under the name exported.
  cases hd : stmt.exported?.bind m.namedExport? with
  | none =>
    rw [hd] at hexported
    subst hexported
    refine ⟨hstmt, ?_⟩
    have hcls : stmt.exported? = some cls := hcls
    rw [hcls]
    exact .itself hcls
  | some d =>
    rw [hd] at hexported
    subst hexported
    obtain rfl := Option.some.inj hcls
    refine ⟨hstmt, ?_⟩
    obtain ⟨e, he, hnamed⟩ := Option.bind_eq_some_iff.mp hd
    rw [Module.namedExport?] at hnamed
    split at hnamed
    · next hident =>
      cases hclass : m.classNamed? e.text with
      | none =>
        rw [hclass] at hnamed
        rw [declarationNamed?_not_class hnamed hclass] at hkind
        cases hkind
      | some c =>
        rw [hclass] at hnamed
        obtain rfl := Option.some.inj hnamed
        obtain ⟨holding, hholding, rfl, -, -⟩ := Module.classNamed?_spec hclass
        have htop : holding.unwrap.topLevel = holding :=
          (Node.below_unwrap holding).topLevel (Module.above_of_statement hholding)
        show Exports m stmt holding.unwrap.topLevel holding.unwrap
        rw [htop]
        exact .named he hident hclass hholding rfl
    · cases hnamed

/-- The class that an exporting statement holds or names is the one that the
    module exports. -/
theorem defaultExport?_of_exports {exporting holding cls : Node}
    (h : m.statements.find? (·.isDefaultExport) = some exporting)
    (hexports : Exports m exporting holding cls) (hkind : cls.kind.isClass = true) :
    m.defaultExport? = some ⟨exporting, some cls, some holding⟩ := by
  rw [defaultExport?_eq, h, Option.map_some]
  cases hexports with
  | itself hexported =>
    have hne : cls.kind ≠ .identifier := by
      intro hk
      rw [hk] at hkind
      cases hkind
    rw [hexported, Option.bind_some, Module.namedExport?, if_neg hne]
    rfl
  | named hexported he hcls hstmt hunwrap =>
    have htop : cls.topLevel = holding := by
      rw [← hunwrap]
      exact (Node.below_unwrap holding).topLevel (Module.above_of_statement hstmt)
    rw [hexported, Option.bind_some, Module.namedExport?, if_pos he, hcls]
    dsimp only
    rw [htop]

/-- A module exports one class at most. -/
theorem ExportedClass.In.unique {x y : ExportedClass} (hx : x.In m) (hy : y.In m) : x = y := by
  have hsame := (defaultExport?_of_exports hx.exporting hx.exports hx.kind).symm.trans
    (defaultExport?_of_exports hy.exporting hy.exports hy.kind)
  have hname := hx.name
  have hclause := hx.clause
  obtain ⟨exporting, holding, cls, name, clause⟩ := x
  obtain ⟨hexporting, hcls, hholding⟩ := DefaultExport.mk.inj (Option.some.inj hsame)
  obtain rfl : exporting = y.exporting := hexporting
  obtain rfl : cls = y.cls := Option.some.inj hcls
  obtain rfl : holding = y.holding := Option.some.inj hholding
  obtain rfl : name = y.name := Option.some.inj (hname.symm.trans hy.name)
  obtain rfl : clause = y.clause := Option.some.inj (hclause.symm.trans hy.clause)
  rfl

theorem Syntax.Node.mem_children_of_exported? {stmt e : Node} (h : stmt.exported? = some e) :
    e ∈ stmt.children := by
  rcases Option.or_eq_some_iff.mp h with h | ⟨-, h⟩
  · exact mem_children_of_child? h
  · exact mem_children_of_child? h

/-- A class that is exported stands below the statement that holds it. -/
theorem Exports.below {exporting holding cls : Node} (h : Exports m exporting holding cls) :
    holding.Below cls := by
  cases h with
  | itself h => exact .child .refl (Node.mem_children_of_exported? h)
  | named _ _ _ _ hunwrap => exact hunwrap ▸ Node.below_unwrap holding

theorem Exports.mem_statements {exporting holding cls : Node} (h : Exports m exporting holding cls)
    (hexporting : m.statements.find? (·.isDefaultExport) = some exporting) :
    holding ∈ m.statements := by
  cases h with
  | itself _ => exact List.mem_of_find?_eq_some hexporting
  | named _ _ _ hstmt _ => exact hstmt

/-! ### What the statements hold -/

/-- A statement of a readable module is read from its text. -/
theorem Module.mem_parse_of_statement (hm : m.Readable) {stmt : Node} (h : stmt ∈ m.statements) :
    stmt.tree ∈ (parse m.chars).children := by
  have hmem : stmt.tree ∈ m.tree.parts := by
    rw [← m.statements_tree]
    exact List.mem_map_of_mem h
  rw [← tree_of_source hm]
  exact (List.mem_filter.mp (List.mem_filter.mp hmem).1).1

/-- In a statement that exports a value, keywords and decorators lead up to that
    value. -/
theorem Module.valueLed_statement (hm : m.Readable) {stmt : Node} (h : stmt ∈ m.statements)
    (hkind : stmt.tree.kind = .exportStatement) : ValueLed stmt.tree.children := by
  have hchild := m.mem_parse_of_statement hm h
  obtain ⟨trees, faults, hchildren, htrees, hfaults⟩ := parse_children m.chars
  rw [hchildren, List.mem_append] at hchild
  rcases hchild with hchild | hchild
  · exact (htrees _ hchild).2 hkind
  · rcases hfaults with rfl | ⟨text, rfl, -⟩
    · cases hchild
    · rw [List.mem_singleton.mp hchild] at hkind
      cases hkind

/-- What a statement holds that exports a class or a name: the class, the name,
    or a decorator before it. -/
def Syntax.Kind.isExported (k : Kind) : Bool :=
  k.isClass || k == .identifier || k == .decorator

theorem Syntax.Kind.isExported_cases {k : Kind} (h : k.isExported = true) :
    k.isWrapper = false ∧ k.isVariables = false ∧ k.isTypeDeclaration = false ∧
      k.isNamespace = false ∧ k.isNamed = true ∧ k ≠ .comment := by
  unfold isExported at h
  rw [Bool.or_eq_true, Bool.or_eq_true, beq_iff_eq, beq_iff_eq] at h
  rcases h with (h | rfl) | rfl
  · unfold isClass at h
    split at h
    · decide
    · decide
    · decide
    · cases h
  · decide
  · decide

/-- A class is neither a wrapper nor variables nor a type nor a namespace. -/
theorem Syntax.Kind.isClass_cases {k : Kind} (h : k.isClass = true) :
    k.isWrapper = false ∧ k.isVariables = false ∧ k.isTypeDeclaration = false ∧
      k.isNamespace = false ∧ k.isNamed = true ∧ k ≠ .comment :=
  isExported_cases (by rw [isExported, h]; rfl)

theorem Syntax.Node.exported?_tree (n : Node) :
    n.exported?.map tree = (n.tree.child? .declaration).or (n.tree.child? .value) := by
  rw [← child?_tree, ← child?_tree, exported?, Option.map_or]

theorem Exports.exported {exporting holding cls : Node} (h : Exports m exporting holding cls)
    (hkind : cls.kind.isClass = true) :
    ∃ e, exporting.exported? = some e ∧ e.kind.isExported = true := by
  cases h with
  | itself h => exact ⟨cls, h, by rw [Kind.isExported, hkind]; rfl⟩
  | named h he _ _ _ => exact ⟨_, h, by rw [he]; rfl⟩

/-- A statement that exports a class or a name holds it, or a decorator before it. -/
theorem Module.unwrap_exported (hm : m.Readable) {stmt : Node} (hstmt : stmt ∈ m.statements)
    (hdefault : stmt.tree.isDefaultExport = true) {e : Tree}
    (he : (stmt.tree.child? .declaration).or (stmt.tree.child? .value) = some e)
    (hkind : e.kind.isExported = true) :
    stmt.tree.unwrap = e ∨ stmt.tree.unwrap.kind = .decorator := by
  rw [Tree.isDefaultExport, Bool.and_eq_true, beq_iff_eq] at hdefault
  obtain ⟨hwrapper, -, -, -, hnamed, hcomment⟩ := Kind.isExported_cases hkind
  have hpart : e.isPart = true := by
    rw [Tree.isPart, Bool.and_eq_true, Bool.not_eq_true', beq_eq_false_iff_ne]
    exact ⟨hnamed, hcomment⟩
  exact Tree.unwrap_of_exported hdefault.1 (m.valueLed_statement hm hstmt hdefault.1) he hwrapper
    hpart

theorem ExportedClass.In.unwrap_exporting (hm : m.Readable) {x : ExportedClass} (hx : x.In m)
    {e : Node} (he : x.exporting.exported? = some e) (hkind : e.kind.isExported = true) :
    x.exporting.tree.unwrap = e.tree ∨ x.exporting.tree.unwrap.kind = .decorator := by
  have htree := x.exporting.exported?_tree
  rw [he, Option.map_some] at htree
  have hdefault := List.find?_some hx.exporting
  rw [Node.isDefaultExport_tree] at hdefault
  exact m.unwrap_exported hm (List.mem_of_find?_eq_some hx.exporting) hdefault htree.symm hkind

/-- Neither the exporting statement nor the one with the class declares anything
    but a class. -/
theorem ExportedClass.In.isExported (hm : m.Readable) {x : ExportedClass} (hx : x.In m) :
    x.exporting.tree.unwrap.kind.isExported = true ∧
      x.holding.tree.unwrap.kind.isExported = true := by
  have hexporting : x.exporting.tree.unwrap.kind.isExported = true := by
    obtain ⟨e, he, hkind⟩ := hx.exports.exported hx.kind
    rcases hx.unwrap_exporting hm he hkind with h | h
    · rw [h]
      exact hkind
    · rw [h]
      rfl
  refine ⟨hexporting, ?_⟩
  have hexports := hx.exports
  revert hexporting hexports
  generalize x.exporting = exporting, x.holding = holding
  intro hexporting hexports
  cases hexports with
  | itself _ => exact hexporting
  | named _ _ _ _ hunwrap =>
    rw [← Node.unwrap_tree, hunwrap]
    show x.cls.kind.isExported = true
    rw [Kind.isExported, hx.kind]
    rfl

/-- A statement without the class exports the name of it. -/
theorem ExportedClass.In.exporting_named {x : ExportedClass} (hx : x.In m)
    (hne : x.exporting.start ≠ x.holding.start) :
    ∃ e, x.exporting.exported? = some e ∧ e.kind = .identifier := by
  have hexports := hx.exports
  revert hexports hne
  generalize x.exporting = exporting, x.holding = holding
  intro hne hexports
  cases hexports with
  | itself _ => exact absurd rfl hne
  | named he hident _ _ _ => exact ⟨_, he, hident⟩

/-- A statement that only names the class declares none. -/
theorem ExportedClass.In.exporting_apart (hm : m.Readable) {x : ExportedClass} (hx : x.In m)
    (hne : x.exporting.start ≠ x.holding.start) :
    x.exporting.tree.unwrap.kind.isClass = false := by
  obtain ⟨e, he, hident⟩ := hx.exporting_named hne
  rcases hx.unwrap_exporting hm he (by rw [hident]; rfl) with h | h
  · rw [h, show e.tree.kind = .identifier from hident]
    rfl
  · rw [h]
    rfl

/-- Holds of a statement that declares a class of a name, or exports one. -/
def Syntax.Tree.holdsClass (name : String) (t : Tree) : Bool :=
  t.declares Kind.isClass name || t.isDefaultExport &&
    ((t.child? .declaration).or (t.child? .value)).any fun e =>
      e.kind.isClass && e.name? == some name

theorem ExportedClass.In.holdsClass {x : ExportedClass} (hx : x.In m) :
    x.holding.tree.holdsClass x.name = true := by
  have hname : (x.cls.tree.kind.isClass && x.cls.tree.name? == some x.name) = true := by
    rw [← Node.name?_tree, hx.name, beq_self_eq_true, Bool.and_true]
    exact hx.kind
  have hdefault := List.find?_some hx.exporting
  rw [Node.isDefaultExport_tree] at hdefault
  rw [Tree.holdsClass, Bool.or_eq_true]
  have hexports := hx.exports
  revert hexports hdefault
  generalize x.exporting = exporting, x.holding = holding
  intro hdefault hexports
  cases hexports with
  | itself he =>
    refine Or.inr ?_
    rw [hdefault, ← Node.exported?_tree, he, Option.map_some, Option.any_some]
    exact hname
  | named _ _ _ _ hunwrap =>
    refine Or.inl ?_
    rw [Tree.declares, ← Node.unwrap_tree, hunwrap]
    exact hname

/-- A statement that only names the class holds none. -/
theorem ExportedClass.In.exporting_holdsClass (hm : m.Readable) {x : ExportedClass} (hx : x.In m)
    (hne : x.exporting.start ≠ x.holding.start) (name : String) :
    x.exporting.tree.holdsClass name = false := by
  obtain ⟨e, he, hident⟩ := hx.exporting_named hne
  have hclass : e.tree.kind.isClass = false := by
    rw [show e.tree.kind = .identifier from hident]
    rfl
  rw [Tree.holdsClass, Tree.declares, hx.exporting_apart hm hne, ← Node.exported?_tree, he,
    Option.map_some, Option.any_some, hclass]
  exact Bool.and_false _

/-- Where a class of a name is held, the statement declares it, or exports it after
    a decorator. -/
theorem Module.holdsClass_cases (hm : m.Readable) {stmt : Node} (hstmt : stmt ∈ m.statements)
    {name : String} (h : stmt.tree.holdsClass name = true) :
    ∃ e, e.kind.isClass = true ∧ e.name? = some name ∧ (stmt.tree.unwrap = e ∨
      stmt.tree.unwrap.kind = .decorator ∧
        (stmt.tree.child? .declaration).or (stmt.tree.child? .value) = some e) := by
  rw [Tree.holdsClass, Bool.or_eq_true, Bool.and_eq_true] at h
  rcases h with h | ⟨hdefault, hany⟩
  · rw [Tree.declares, Bool.and_eq_true, beq_iff_eq] at h
    exact ⟨_, h.1, h.2, Or.inl rfl⟩
  · cases he : (stmt.tree.child? .declaration).or (stmt.tree.child? .value) with
    | none =>
      rw [he] at hany
      cases hany
    | some e =>
      rw [he, Option.any_some, Bool.and_eq_true, beq_iff_eq] at hany
      refine ⟨e, hany.1, hany.2, ?_⟩
      rcases m.unwrap_exported hm hstmt hdefault he (by rw [Kind.isExported, hany.1]; rfl) with
        h | h
      · exact Or.inl h
      · exact Or.inr ⟨h, rfl⟩

/-- The statement that holds the exported class holds no other one. -/
theorem ExportedClass.In.name_of_holdsClass (hm : m.Readable) {x : ExportedClass} (hx : x.In m)
    (hmem : x.holding ∈ m.statements) {name : String}
    (h : x.holding.tree.holdsClass name = true) : name = x.name := by
  obtain ⟨e, he, hename, hcase⟩ := m.holdsClass_cases hm hmem h
  obtain ⟨e', he', hename', hcase'⟩ := m.holdsClass_cases hm hmem hx.holdsClass
  have hdecorator : ∀ {t : Tree}, t.kind.isClass = true → t.kind ≠ .decorator := by
    intro t ht hkind
    rw [hkind] at ht
    cases ht
  have hsame : e = e' := by
    rcases hcase with h | ⟨h, hchild⟩
    · rcases hcase' with h' | ⟨h', -⟩
      · exact h.symm.trans h'
      · exact absurd (h ▸ h') (hdecorator he)
    · rcases hcase' with h' | ⟨-, hchild'⟩
      · exact absurd (h' ▸ h) (hdecorator he')
      · exact Option.some.inj (hchild.symm.trans hchild')
  rw [hsame, hename'] at hename
  exact (Option.some.inj hename).symm

/-! ### What the first stage plans -/

namespace ExportedClass

/-- The type arguments of the base class that are exchanged, with the texts that
    come in their places. -/
def namedArguments (x : ExportedClass) : List (Node × String) :=
  if x.clause.baseTypeArguments.length = AliasKind.all.length then
    (AliasKind.all.zip x.clause.baseTypeArguments).map fun ka => (ka.2, x.name ++ "." ++ ka.1.name)
  else []

/-- The edits of the first stage on the statement that holds the class. -/
def edits (x : ExportedClass) (comments : Option Comments) : List Edit :=
  ⟨x.holding.start, x.cls.start, declareHead comments⟩ :: replacements x.namedArguments

end ExportedClass

/-- How the first stage ends on a module. -/
inductive NormalizeEnds (m : Module) (comments : Option Comments) (settings : Settings) :
    Except Failure (Plan String) → Prop where
  | noExport (h : m.defaultExport? = none) :
    NormalizeEnds m comments settings (.error .missingDefaultExport)
  | nonClass {exported : DefaultExport} (h : m.defaultExport? = some exported)
    (hclass : exported.declaration.filter (·.kind.isClass) = none) :
    NormalizeEnds m comments settings
      (.error (.exportedNonClass (m.mention (exported.declaration.getD exported.statement))))
  | unnamed {exported : DefaultExport} {cls : Node} (h : m.defaultExport? = some exported)
    (hclass : exported.declaration = some cls) (hkind : cls.kind.isClass = true)
    (hname : cls.name? = none) :
    NormalizeEnds m comments settings (.error (.unnamedClass (m.mention cls)))
  | noHeritage {exported : DefaultExport} {cls : Node} {name : String}
    (h : m.defaultExport? = some exported) (hclass : exported.declaration = some cls)
    (hkind : cls.kind.isClass = true) (hname : cls.name? = some name)
    (hclause : cls.extendsClause? = none) :
    NormalizeEnds m comments settings (.error (.missingHeritage name (m.mention cls)))
  | mismatch {x : ExportedClass} (hx : x.In m)
    (hcount : x.clause.baseTypeArguments.length ≠ 3) (hpolicy : settings.argumentPolicy = .error) :
    NormalizeEnds m comments settings
      (.error (.argumentMismatch x.name x.clause.baseTypeArguments.length (m.mention x.clause)))
  | plans {x : ExportedClass} (hx : x.In m)
    (hcount : x.clause.baseTypeArguments.length = 3 ∨ settings.argumentPolicy ≠ .error)
    {plan : Plan String} (hresult : plan.result = x.name)
    (hedits : plan.edits.Perm ((if x.exporting.start ≠ x.holding.start then
      [m.removeStatement x.exporting] else []) ++ x.edits comments)) :
    NormalizeEnds m comments settings (.ok plan)

theorem normalizeExport_ends (m : Module) (comments : Option Comments) (settings : Settings) :
    NormalizeEnds m comments settings (normalizeExport m comments settings) := by
  unfold normalizeExport
  cases hexported : m.defaultExport? with
  | none => exact .noExport hexported
  | some exported =>
  dsimp only
  cases hfilter : exported.declaration.filter (·.kind.isClass) with
  | none => exact .nonClass hexported hfilter
  | some cls =>
  obtain ⟨hdeclaration, hkind⟩ := Option.filter_eq_some_iff.mp hfilter
  dsimp only
  cases hname : cls.name? with
  | none => exact .unnamed hexported hdeclaration hkind hname
  | some name =>
  dsimp only
  cases hclause : cls.extendsClause? with
  | none => exact .noHeritage hexported hdeclaration hkind hname hclause
  | some clause =>
  dsimp only
  obtain ⟨hexporting, hexports⟩ := exports_of_defaultExport? hexported hdeclaration hkind
  have hx : ExportedClass.In ⟨exported.statement,
      exported.declarationStatement.getD exported.statement, cls, name, clause⟩ m :=
    ⟨hexporting, hexports, hkind, hname, hclause⟩
  -- The edit that stands first in the plan goes behind the removal.
  have hperm : ∀ (a : Edit) (l l' : List Edit), (a :: l ++ l').Perm (l ++ a :: l') :=
    fun a l l' => List.perm_middle.symm
  split
  · next hcount =>
    refine .plans hx (Or.inl hcount) rfl ((hperm _ _ _).trans ?_)
    rw [ExportedClass.edits, ExportedClass.namedArguments, if_pos hcount, replacements,
      List.map_map]
    rfl
  · next hcount =>
    have hedits : replacements (ExportedClass.namedArguments ⟨exported.statement,
        exported.declarationStatement.getD exported.statement, cls, name, clause⟩) = [] := by
      rw [ExportedClass.namedArguments, if_neg hcount]
      rfl
    split
    · next hpolicy => exact .mismatch hx hcount hpolicy
    · next hpolicy =>
      refine .plans hx (Or.inr (by rw [hpolicy]; decide)) rfl ?_
      rw [ExportedClass.edits, hedits]
      simpa using hperm _ _ []
    · next hpolicy =>
      refine .plans hx (Or.inr (by rw [hpolicy]; decide)) rfl ?_
      rw [ExportedClass.edits, hedits]
      simpa using hperm _ _ []

end ComponentDecl
