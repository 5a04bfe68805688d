import ComponentDecl.Proofs.Pass.Types

/-! # What captured names mean

    A captured type may be the name of an interface, a class or an enumeration of
    the module, or of something that it imports.  Such a declaration stays where
    it is, and inside the namespace the name still means it, unless the name is
    that of one of the three aliases.  Then the alias takes the name over.

    Key theorems:
    - `process_keepsNames`: what a captured name means after a pass
    - `process_takesName`: an alias that is its own type
-/

namespace ComponentDecl

open Syntax Text

variable {m : Module} {comments : Option Comments} {settings : Settings}

/-! ### Declarations of types -/

namespace Syntax

/-- Interfaces and enumerations. -/
def Kind.isKeptType : Kind → Bool
  | .interfaceDeclaration | .enumDeclaration => true
  | _ => false

/-- Declarations of types other than classes, and imports. -/
def Kind.bindsTypes : Kind → Bool
  | .interfaceDeclaration | .enumDeclaration | .typeAliasDeclaration => true
  | .importAlias | .importStatement => true
  | _ => false

theorem Kind.bindsTypes_of_isExported {k : Kind} (h : k.isExported = true) :
    k.bindsTypes = false := by
  unfold isExported at h
  rw [Bool.or_eq_true, Bool.or_eq_true, beq_iff_eq, beq_iff_eq] at h
  rcases h with (h | rfl) | rfl
  · unfold isClass at h
    split at h
    · rfl
    · rfl
    · rfl
    · cases h
  · rfl
  · rfl

theorem Kind.isExported_of_isVariables {k : Kind} (h : k.isVariables = true) :
    k.isExported = false := by
  unfold isVariables at h
  split at h
  · rfl
  · rfl
  · cases h

theorem Kind.isExported_of_isNamespace {k : Kind} (h : k.isNamespace = true) :
    k.isExported = false := by
  unfold isNamespace at h
  split at h
  · rfl
  · rfl
  · cases h

theorem Kind.bindsTypes_of_isVariables {k : Kind} (h : k.isVariables = true) :
    k.bindsTypes = false := by
  unfold isVariables at h
  split at h
  · rfl
  · rfl
  · cases h

theorem Kind.bindsTypes_of_isNamespace {k : Kind} (h : k.isNamespace = true) :
    k.bindsTypes = false := by
  unfold isNamespace at h
  split at h
  · rfl
  · rfl
  · cases h

namespace Tree

/-- The names directly below a tree. -/
def identifiers (t : Tree) : List String :=
  (t.parts.filter (·.kind == .identifier)).map (·.text)

/-- The names that an import clause brings in; where something gets another name,
    that one comes last. -/
def clauseNames (clause : Tree) : List String :=
  clause.identifiers ++ clause.parts.flatMap fun part =>
    match part.kind with
    | .namespaceImport => part.identifiers
    | .namedImports => part.parts.filterMap (·.identifiers.getLast?)
    | _ => []

/-- The names that a statement imports. -/
def importedNames (t : Tree) : List String :=
  match t.unwrap.kind with
  | .importAlias => t.unwrap.identifiers.take 1
  | .importStatement => t.unwrap.parts.flatMap fun part =>
    match part.kind with
    | .importClause => part.clauseNames
    | .importRequireClause => part.identifiers
    | _ => []
  | _ => []

/-- Holds of a statement that a pass keeps and that gives a type the name. -/
def keepsName (name : String) (t : Tree) : Bool :=
  t.holdsClass name || t.declares Kind.isKeptType name || t.importedNames.contains name

/-- Holds of a statement that gives a type the name. -/
def bindsType (name : String) (t : Tree) : Bool :=
  t.keepsName name || t.declares (· == .typeAliasDeclaration) name

/-- What a type name means inside a namespace: an alias there, or else what the
    statements of the module declare. -/
def denotedInside (namespaced : Tree) (statements : List Tree) (name : String) : List Tree :=
  let own := namespaced.unwrap.bodyParts.filter (·.declares (· == .typeAliasDeclaration) name)
  if own.isEmpty then statements.filter (·.bindsType name) else own

theorem importedNames_eq_nil {t : Tree} (h : t.unwrap.kind.bindsTypes = false) :
    t.importedNames = [] := by
  unfold importedNames
  split
  · next hkind =>
    rw [hkind] at h
    cases h
  · next hkind =>
    rw [hkind] at h
    cases h
  · rfl

/-- Where a statement neither declares a type nor imports, only a class counts. -/
theorem bindsType_eq_holdsClass {t : Tree} (h : t.unwrap.kind.bindsTypes = false)
    (name : String) :
    t.keepsName name = t.holdsClass name ∧ t.bindsType name = t.holdsClass name := by
  have hkept : t.unwrap.kind.isKeptType = false := by
    by_contra hkept
    rw [Bool.not_eq_false] at hkept
    unfold Kind.isKeptType at hkept
    split at hkept
    · next hkind => rw [hkind] at h; cases h
    · next hkind => rw [hkind] at h; cases h
    · cases hkept
  have halias : (t.unwrap.kind == .typeAliasDeclaration) = false := by
    rw [beq_eq_false_iff_ne]
    intro hkind
    rw [hkind] at h
    cases h
  have hkeeps : t.keepsName name = t.holdsClass name := by
    rw [keepsName, declares_eq_false hkept, importedNames_eq_nil h, Bool.or_false]
    exact Bool.or_false _
  refine ⟨hkeeps, ?_⟩
  rw [bindsType, hkeeps, declares_eq_false halias, Bool.or_false]

theorem isPart_of_keepsName {name : String} {t : Tree} (h : t.keepsName name = true) :
    t.isPart = true := by
  cases hbinds : t.unwrap.kind.bindsTypes with
  | false =>
    rw [(bindsType_eq_holdsClass hbinds name).1] at h
    exact isPart_of_holdsClass h
  | true =>
    refine isPart_of_unwrap ?_
    unfold Kind.bindsTypes at hbinds
    unfold isPart
    split at hbinds
    · next hkind => rw [hkind]; rfl
    · next hkind => rw [hkind]; rfl
    · next hkind => rw [hkind]; rfl
    · next hkind => rw [hkind]; rfl
    · next hkind => rw [hkind]; rfl
    · cases hbinds

theorem isPart_of_bindsType {name : String} {t : Tree} (h : t.bindsType name = true) :
    t.isPart = true := by
  rw [bindsType, Bool.or_eq_true] at h
  rcases h with h | h
  · exact isPart_of_keepsName h
  · rw [declares, Bool.and_eq_true] at h
    exact isPart_of_alias h.1

/-- A type alias is not kept. -/
theorem keepsName_of_alias {t : Tree} (h : t.unwrap.kind = .typeAliasDeclaration)
    (name : String) : t.keepsName name = t.holdsClass name := by
  have hkept : t.unwrap.kind.isKeptType = false := by
    rw [h]
    rfl
  have himports : t.importedNames = [] := by
    rw [importedNames, h]
  rw [keepsName, declares_eq_false hkept, himports, Bool.or_false]
  exact Bool.or_false _

/-- A statement that is no alias gives a type a name if a pass keeps it. -/
theorem bindsType_eq_keepsName {t : Tree} (h : t.unwrap.kind ≠ .typeAliasDeclaration)
    (name : String) : t.bindsType name = t.keepsName name := by
  have halias : (t.unwrap.kind == .typeAliasDeclaration) = false := beq_eq_false_iff_ne.mpr h
  rw [bindsType, declares_eq_false halias, Bool.or_false]

end Tree

end Syntax

/-- A statement that holds a class is a class, or has a decorator first. -/
theorem Module.kind_of_holdsClass (hm : m.Readable) {stmt : Node} (hstmt : stmt ∈ m.statements)
    {name : String} (h : stmt.tree.holdsClass name = true) :
    stmt.tree.unwrap.kind.isExported = true := by
  obtain ⟨e, he, -, hcase⟩ := m.holdsClass_cases hm hstmt h
  rcases hcase with hunwrap | ⟨hkind, -⟩
  · rw [hunwrap, Kind.isExported, he]
    rfl
  · rw [hkind]
    rfl

/-- A construct of a module that is neither a class nor a decorator holds none. -/
theorem Module.lacks_class (hm : m.Readable) {t : Tree} (ht : t ∈ m.tree.nodes)
    (hkind : t.unwrap.kind.isExported = false) (name : String) : t.holdsClass name = false := by
  by_contra h
  rw [Bool.not_eq_false] at h
  have hmem : t ∈ m.statements.map Node.tree := by
    rw [m.statements_tree]
    exact List.mem_filter.mpr ⟨ht, Tree.isPart_of_holdsClass h⟩
  obtain ⟨stmt, hstmt, rfl⟩ := List.mem_map.mp hmem
  rw [m.kind_of_holdsClass hm hstmt h] at hkind
  cases hkind

/-! ### After a pass -/

theorem filter_concat {α : Type} {p : α → Bool} {l : List α} {a : α}
    (hl : ∀ b ∈ l, p b = false) : (l ++ [a]).filter p = if p a then [a] else [] := by
  rw [List.filter_append, List.filter_eq_nil_iff.mpr fun b hb => Bool.eq_false_iff.mp (hl b hb),
    List.nil_append, List.filter_cons]
  rfl

theorem flatMap_ite {α β : Type} (p : α → Bool) (f : α → β) (l : List α) :
    l.flatMap (fun a => if p a then [f a] else []) = (l.filter p).map f := by
  induction l with
  | nil => rfl
  | cons a l ih =>
    rw [List.flatMap_cons, ih, List.filter_cons]
    cases p a with
    | true => rfl
    | false => rfl

namespace Course

variable {c : Course comments settings m} {x : ExportedClass} {v : Variable} {home : Node}
  {kept : Node → Tree} {D R N E : Tree}

/-- The statement of the class gives its name to the class, before and after. -/
theorem Completed.bindsType_class (h : c.Completed x v home kept D R N E)
    (hw : c.WorksOn x v home) (name : String) :
    D.bindsType name = x.holding.tree.keepsName name := by
  have hD := h.declared.1
  have hholding := (hw.exported.isExported hw.readable).2
  have hdeclared : D.unwrap.kind.isExported = true := by
    rw [Kind.isExported, hD.declared]
    rfl
  rw [(Tree.bindsType_eq_holdsClass (Kind.bindsTypes_of_isExported hdeclared) name).2,
    (Tree.bindsType_eq_holdsClass (Kind.bindsTypes_of_isExported hholding) name).1,
    hD.holdsClass, Bool.eq_iff_iff, beq_iff_eq]
  constructor
  · rintro rfl
    exact hw.exported.holdsClass
  · exact fun hholds => (hw.exported.name_of_holdsClass hw.readable hw.holding_mem hholds).symm

/-- Neither the namespace nor the export gives a type a name. -/
theorem Completed.bindsType_made (h : c.Completed x v home kept D R N E) (name : String) :
    N.bindsType name = false ∧ E.bindsType name = false := by
  obtain ⟨blocks, type, -, -, -, hN⟩ := h.namespaced
  have hE := h.exports.1
  have hNbinds := Kind.bindsTypes_of_isNamespace hN.declared
  have hEbinds : E.unwrap.kind.bindsTypes = false := by
    rw [hE.plain]
    rfl
  rw [(Tree.bindsType_eq_holdsClass hNbinds name).2,
    (Tree.bindsType_eq_holdsClass hEbinds name).2]
  exact ⟨hN.holdsClass name, hE.holdsClass name⟩

/-- A statement that a pass keeps gives the same names to types. -/
theorem Completed.bindsType_kept (h : c.Completed x v home kept D R N E)
    (hw : c.WorksOn x v home) {rn : Row × Node} (hrn : rn ∈ m.located)
    (hkind : rn.2.tree.unwrap.kind ≠ .typeAliasDeclaration) (hmem : kept rn.2 ∈ c.exported.tree.nodes)
    (name : String) :
    (if (kept rn.2).bindsType name then [kept rn.2] else []) =
      if rn.2.tree.keepsName name then [rn.2.tree] else [] := by
  rcases h.keeps rn hrn with hsame | ⟨hdeclares, type, hdocuments⟩
  · rw [hsame, Tree.bindsType_eq_keepsName hkind]
  · -- A namespace of the class's name may have got comments, but binds no type.
    rw [Tree.declares, Bool.and_eq_true] at hdeclares
    have hnamespace := hdeclares.1
    have hlater : (kept rn.2).unwrap.kind.isNamespace = true := by
      rw [hdocuments.declared]
      exact hnamespace
    rw [(Tree.bindsType_eq_holdsClass (Kind.bindsTypes_of_isNamespace hlater) name).2,
      (Tree.bindsType_eq_holdsClass (Kind.bindsTypes_of_isNamespace hnamespace) name).1,
      c.exported.lacks_class h.readable hmem (Kind.isExported_of_isNamespace hlater),
      m.lacks_class hw.readable (Module.mem_nodes_of_located hrn)
        (Kind.isExported_of_isNamespace hnamespace)]
    rfl

/-- The statement of the helper variable gives no type a name. -/
theorem WorksOn.helper_keeps_none (hw : c.WorksOn x v home) {rn : Row × Node}
    (hrn : rn ∈ m.located) (hhelper : rn.2.start = v.statement.start) (name : String) :
    rn.2.tree.keepsName name = false := by
  have hvariables : rn.2.tree.unwrap.kind.isVariables = true := by
    rw [m.node_eq_of_start hw.readable hrn hw.helper_mem hhelper]
    exact hw.helper_kind
  rw [(Tree.bindsType_eq_holdsClass (Kind.bindsTypes_of_isVariables hvariables) name).1]
  exact m.lacks_class hw.readable (Module.mem_nodes_of_located hrn)
    (Kind.isExported_of_isVariables hvariables) name

/-- What is left of the helper's statement gives no type a name. -/
theorem Completed.remaining_binds_none (h : c.Completed x v home kept D R N E)
    (hw : c.WorksOn x v home) (hmore : v.declaration.declarators.length ≠ 1)
    (hmem : R ∈ c.exported.tree.nodes) (name : String) : R.bindsType name = false := by
  have hvariables : R.unwrap.kind.isVariables = true := by
    rw [(h.remaining hmore).1.declaration]
    exact (Module.variableNamed?_spec hw.helper).2.2.1
  rw [(Tree.bindsType_eq_holdsClass (Kind.bindsTypes_of_isVariables hvariables) name).2]
  exact c.exported.lacks_class h.readable hmem (Kind.isExported_of_isVariables hvariables) name

/-- An export that stands apart from the class gives no type a name. -/
theorem WorksOn.export_keeps_none (hw : c.WorksOn x v home) {rn : Row × Node}
    (hrn : rn ∈ m.located) (hexporting : rn.2.start = x.exporting.start)
    (hholding : rn.2.start ≠ x.holding.start) (name : String) :
    rn.2.tree.keepsName name = false := by
  have hm := hw.readable
  have hbinds := Kind.bindsTypes_of_isExported (hw.exported.isExported hm).1
  rw [m.node_eq_of_start hm hrn hw.exported.exporting_mem hexporting,
    (Tree.bindsType_eq_holdsClass hbinds name).1]
  exact hw.exported.exporting_holdsClass hm (hexporting ▸ hholding) name

/-- Of what stands for a row, but for the namespace, only a class or a statement
    that is kept gives a type a name. -/
theorem Completed.filter_ownBlock (h : c.Completed x v home kept D R N E)
    (hw : c.WorksOn x v home) {rn : Row × Node} (hrn : rn ∈ m.located)
    (hkind : rn.2.tree.unwrap.kind ≠ .typeAliasDeclaration)
    (hmem : ∀ t ∈ x.ownBlock v (c.joinedParts kept D R N) rn, t ∈ c.exported.tree.nodes)
    (name : String) :
    (x.ownBlock v (c.joinedParts kept D R N) rn).filter (·.bindsType name) =
      if rn.2.tree.keepsName name then
        [if rn.2.start = x.holding.start then D else rn.2.tree]
      else [] := by
  have hdocs : ∀ t ∈ rn.1.docs.map (·.tree), t.bindsType name = false := fun t ht =>
    lacks_of_not_part (fun _ => Tree.isPart_of_bindsType) (m.docs_not_parts hrn ht)
  have hown : x.ownBlock v (c.joinedParts kept D R N) rn =
      let docs := rn.1.docs.map (·.tree)
      if rn.2.start = x.holding.start then
        docs ++ (describedBy comments).toList.map (.token none .comment) ++ [D]
      else if rn.2.start = x.exporting.start then []
      else if rn.2.start = v.statement.start then
        if v.declaration.declarators.length = 1 then [] else docs ++ [R]
      else docs ++ [kept rn.2] := rfl
  rw [hown] at hmem ⊢
  dsimp only at hmem ⊢
  by_cases hholding : rn.2.start = x.holding.start
  · -- The class, after comments.
    rw [if_pos hholding, if_pos hholding, filter_concat, h.bindsType_class hw,
      m.node_eq_of_start hw.readable hrn hw.holding_mem hholding]
    intro t ht
    rcases List.mem_append.mp ht with ht | ht
    · exact hdocs t ht
    · obtain ⟨text, -, rfl⟩ := List.mem_map.mp ht
      exact lacks_of_not_part (fun _ => Tree.isPart_of_bindsType) rfl
  rw [if_neg hholding] at hmem ⊢
  rw [if_neg hholding]
  by_cases hexporting : rn.2.start = x.exporting.start
  · rw [if_pos hexporting, hw.export_keeps_none hrn hexporting hholding]
    rfl
  rw [if_neg hexporting] at hmem ⊢
  by_cases hhelper : rn.2.start = v.statement.start
  · rw [if_pos hhelper] at hmem ⊢
    rw [hw.helper_keeps_none hrn hhelper, if_neg Bool.false_ne_true]
    by_cases halone : v.declaration.declarators.length = 1
    · rw [if_pos halone]
      rfl
    · rw [if_neg halone] at hmem ⊢
      rw [filter_concat hdocs, h.remaining_binds_none hw halone
        (hmem R (List.mem_append_right _ (List.mem_singleton.mpr rfl))), if_neg Bool.false_ne_true]
  · -- Any other statement, after its doc comments.
    rw [if_neg hhelper] at hmem ⊢
    rw [filter_concat hdocs]
    exact h.bindsType_kept hw hrn hkind
      (hmem _ (List.mem_append_right _ (List.mem_singleton.mpr rfl))) name

/-- Of what stands for a row, only a class or a statement that is kept gives a type
    a name. -/
theorem Completed.filter_block (h : c.Completed x v home kept D R N E)
    (hw : c.WorksOn x v home) {rn : Row × Node} (hrn : rn ∈ m.located) (name : String) :
    (x.block v home (c.joinedParts kept D R N) rn).filter (·.bindsType name) =
      if rn.2.tree.keepsName name then
        [if rn.2.start = x.holding.start then D else rn.2.tree]
      else [] := by
  have hmem : ∀ t ∈ x.block v home (c.joinedParts kept D R N) rn,
      t ∈ c.exported.tree.nodes := by
    intro t ht
    rw [h.nodes]
    exact List.mem_append_left _ (List.mem_flatMap.mpr ⟨rn, hrn, ht⟩)
  rw [ExportedClass.block] at hmem ⊢
  by_cases hkind : rn.2.tree.unwrap.kind = .typeAliasDeclaration
  · rw [if_pos hkind, Tree.keepsName_of_alias hkind,
      m.lacks_class hw.readable (Module.mem_nodes_of_located hrn) (by rw [hkind]; rfl)]
    rfl
  rw [if_neg hkind, ExportedClass.joinedBlock] at hmem ⊢
  rw [List.filter_append, h.filter_ownBlock hw hrn hkind
    fun t ht => hmem t (List.mem_append_left _ ht)]
  -- The namespace binds its name in the space of values and namespaces, not of types.
  have hnamespaced : (if rn.2.start = home.start then (c.joinedParts kept D R N).namespaced
      else []).filter (·.bindsType name) = [] := by
    split
    · refine List.filter_eq_nil_iff.mpr fun t ht => ?_
      rw [Bool.not_eq_true]
      rcases List.mem_pair.mp ht with rfl | rfl
      · exact lacks_of_not_part (fun _ => Tree.isPart_of_bindsType) rfl
      · exact (h.bindsType_made name).1
    · rfl
  rw [hnamespaced, List.append_nil]

/-- After a pass, a type name is given by the statements that gave it before and
    that are kept. -/
theorem Completed.filter_nodes (h : c.Completed x v home kept D R N E)
    (hw : c.WorksOn x v home) (name : String) :
    c.exported.tree.nodes.filter (·.bindsType name) =
      (m.statements.filter (·.tree.keepsName name)).map fun stmt =>
        if stmt.start = x.holding.start then D else stmt.tree := by
  have hE : [E].filter (·.bindsType name) = [] :=
    List.filter_cons_of_neg (by rw [(h.bindsType_made name).2]; decide)
  rw [h.nodes, List.filter_append, hE, List.append_nil, List.filter_flatMap, m.statements_eq,
    List.filter_filter]
  have hparts : (fun n : Node => n.tree.keepsName name && n.tree.isPart) =
      fun n => n.tree.keepsName name := by
    funext n
    cases hkeeps : n.tree.keepsName name with
    | false => rfl
    | true => exact Tree.isPart_of_keepsName hkeeps
  rw [hparts, ← flatMap_ite, List.flatMap_map]
  exact List.flatMap_congr fun rn hrn => h.filter_block hw hrn name

end Course

/-- An alias is its own type only where that was captured. -/
theorem Stands.ne_name {kind : AliasKind} {text type : String} (h : Stands comments kind text type)
    (hne : text ≠ kind.name) : type ≠ kind.name := by
  cases kind with
  | props =>
    obtain ⟨blocks, hblocks, hinserted⟩ := h
    rintro rfl
    generalize hname : AliasKind.props.name.toList = name at hinserted
    generalize htext : text.toList = written at hinserted
    have hline : '\n' ∉ name := by
      rw [← hname]
      decide
    cases hinserted with
    | none => exact hne (String.toList_inj.mp (htext.trans hname.symm))
    | @block blocks rest out kept added _ _ =>
      -- The comment of a prop starts a line, and the name of an alias has none.
      obtain ⟨docs, prop, -, -, rfl⟩ := hblocks added (.head _)
      refine hline (List.mem_append_right _ (List.mem_append_left _ ?_))
      rw [String.toList_append, String.toList_append]
      exact List.mem_append_left _ (List.mem_append_left _ (.head _))
  | events => exact fun htype => hne (Eq.trans h.symm htype)
  | slots => exact fun htype => hne (Eq.trans h.symm htype)

/-- In the namespace of a class only the aliases have names of their own. -/
theorem DeclaresAliases.denotedInside {className name : String} {types : AliasKind → String}
    {N : Tree} (h : DeclaresAliases className types N)
    (hname : name ∉ AliasKind.all.map AliasKind.name) (statements : List Tree) :
    N.denotedInside statements name = statements.filter (·.bindsType name) := by
  have hown : N.unwrap.bodyParts.filter (·.declares (· == .typeAliasDeclaration) name) = [] := by
    refine List.filter_eq_nil_iff.mpr fun t ht hdeclares => hname ?_
    have halias : t.exportedAlias? ∈ AliasKind.all.map fun k => some (k.name, types k) := by
      rw [← h.aliases]
      exact List.mem_map_of_mem ht
    obtain ⟨kind, hkind, hsome⟩ := List.mem_map.mp halias
    obtain ⟨-, hnamed, -⟩ := Tree.declares_of_exportedAlias? hsome.symm
    rw [Tree.declares, Bool.and_eq_true, hnamed, beq_iff_eq (a := some kind.name)] at hdeclares
    rw [← Option.some.inj hdeclares.2]
    exact List.mem_map_of_mem hkind
  unfold Tree.denotedInside
  rw [hown]
  rfl

/-! ### Meanings -/

/-- Holds of the module after a pass if a captured name means in the namespace what
    it meant in the module, unless it is the name of an alias.  Here `D` is what the
    statement of the class has become. -/
def KeepsNames (comments : Option Comments) (settings : Settings) (className : String)
    (m m' : Module) : Prop :=
  ∃ (x : ExportedClass) (v : Variable) (types : AliasKind → String) (N D : Tree),
    x.In m ∧ x.name = className ∧ m.variableNamed? settings.helperVariable = some v ∧
    N ∈ m'.tree.nodes ∧ DeclaresAliases className types N ∧ x.Declares D ∧
    ∀ kind, ∃ signature, (m.variableMembers v).get? kind.member = some signature ∧
      Stands comments kind signature.memberTypeText (types kind) ∧
      (signature.memberTypeText ∉ AliasKind.all.map AliasKind.name →
        types kind ≠ kind.name ∧
        N.denotedInside m'.tree.nodes signature.memberTypeText =
          (m.statements.filter (·.tree.keepsName signature.memberTypeText)).map fun stmt =>
            if stmt.start = x.holding.start then D else stmt.tree)

/-- A pass that succeeds keeps the meaning of the names that it captures. -/
theorem process_keepsNames (comments : Option Comments) (settings : Settings) {s s' : Session}
    {className : String} {documented : Nat} (hcomplete : CompleteComments comments)
    (hlocal : ReadsLocally comments settings s.module)
    (hsuccess : process comments settings s = (.ok (.success className documented), s')) :
    KeepsNames comments settings className s.module s'.module := by
  obtain ⟨c, rfl, -, hmodule⟩ := course_of_success hsuccess
  obtain ⟨x, v, home, hw⟩ := c.exists_worksOn hcomplete hlocal.first
  obtain ⟨kept, D, R, N, E, hcompleted⟩ := hw.nodes_exported hcomplete hlocal
  obtain ⟨blocks, type, hblocks, -, hinserted, hN⟩ := hcompleted.namespaced
  rw [hmodule]
  refine ⟨x, v, withProps type c.extraction.result.get, N, D, hw.exported, hw.name.symm, hw.helper,
    hcompleted.mem_namespace hw, hN, hcompleted.declared.1, fun kind => ?_⟩
  obtain ⟨signature, hsignature, htext⟩ :=
    Option.map_eq_some_iff.mp (hw.captured hcomplete hlocal.first kind)
  have hstands : Stands comments kind signature.memberTypeText
      (withProps type c.extraction.result.get kind) := by
    rw [htext]
    exact stands_withProps hblocks hinserted kind
  refine ⟨signature, hsignature, hstands, fun hname => ⟨hstands.ne_name ?_, ?_⟩⟩
  · intro hown
    rw [hown] at hname
    cases kind <;> exact hname (by decide)
  · rw [hN.denotedInside hname, hcompleted.filter_nodes hw]

/-- The small component has an interface for its events. -/
theorem process_keepsNames_small : ∃ documented s',
    process smallComments smallSettings ⟨smallModule, []⟩ =
      (.ok (.success "A" documented), s') ∧
    KeepsNames smallComments smallSettings "A" smallModule s'.module := by
  obtain ⟨documented, s', hsuccess⟩ := process_small
  exact ⟨documented, s', hsuccess, process_keepsNames (s := ⟨smallModule, []⟩) smallComments
    smallSettings completeComments_small readsLocally_small hsuccess⟩

/-! ### A name that is taken over -/

/-- A component whose props have an interface of the alias's name. -/
def takenModule : Module := Module.ofText none
  "interface Props{}\nvar h:{props:Props,events:{},slots:{}}\nexport default class A extends B{}"

/-- Whether the name of the first alias means that alias once a pass has succeeded,
    and it is its own type. -/
def takesName (ended : Except Break Outcome × Session) : Bool :=
  match ended with
  | (.ok (.success className _), s) => className == "A" && s.module.tree.nodes.any fun N =>
    N.declares Kind.isNamespace "A" &&
      (N.denotedInside s.module.tree.nodes "Props").map Tree.exportedAlias? ==
        [some ("Props", "Props")]
  | _ => false

/-- Inside the namespace the name of the interface does not mean the interface, but
    an alias that is its own type. -/
theorem process_takesName :
    (∃ v signature, takenModule.variableNamed? smallSettings.helperVariable = some v ∧
      (takenModule.variableMembers v).get? AliasKind.props.member = some signature ∧
      signature.memberTypeText = "Props") ∧
    (takenModule.statements.filter (·.tree.keepsName "Props")).map (·.tree.unwrap.kind) =
      [.interfaceDeclaration] ∧
    ∃ documented s' N, process none smallSettings ⟨takenModule, []⟩ =
        (.ok (.success "A" documented), s') ∧
      N ∈ s'.module.tree.nodes ∧ N.declares Kind.isNamespace "A" = true ∧
      (N.denotedInside s'.module.tree.nodes "Props").map Tree.exportedAlias? =
        [some ("Props", "Props")] := by
  refine ⟨?_, by decide +kernel, ?_⟩
  · have htext : ((takenModule.variableNamed? smallSettings.helperVariable).bind fun v =>
        (takenModule.variableMembers v).get? AliasKind.props.member).map (·.memberTypeText) =
        some "Props" := by
      decide +kernel
    obtain ⟨signature, hsignature, htext⟩ := Option.map_eq_some_iff.mp htext
    obtain ⟨v, hv, hsignature⟩ := Option.bind_eq_some_iff.mp hsignature
    exact ⟨v, signature, hv, hsignature, htext⟩
  · -- The end of the run is computed once, as one test, and taken apart after that.
    have htakes : takesName (process none smallSettings ⟨takenModule, []⟩) = true := by
      decide +kernel
    generalize process none smallSettings ⟨takenModule, []⟩ = ended at htakes ⊢
    unfold takesName at htakes
    split at htakes
    · next className documented s' =>
      rw [Bool.and_eq_true, beq_iff_eq, List.any_eq_true] at htakes
      obtain ⟨rfl, N, hN, htakes⟩ := htakes
      rw [Bool.and_eq_true, beq_iff_eq] at htakes
      exact ⟨documented, s', N, rfl, hN, htakes.1, htakes.2⟩
    · cases htakes

end ComponentDecl
