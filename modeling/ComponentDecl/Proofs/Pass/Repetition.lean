import ComponentDecl.Proofs.Pass.Atomicity
import ComponentDecl.Proofs.Pass.Shape

/-! # A second pass

    What a pass has written has no helper variable any more.  A second pass on it
    still finds the class, now by its name, and carries out the first batch.  Then
    it fails where it looks for the helper, and the rollback takes the first batch
    back.

    Key theorems:
    - `diagnose_eq_missingHelper`: the diagnosis of a module that exports a class by
      its name and has no helper variable
    - `process_again`: a second pass on what a pass has written
-/

namespace ComponentDecl

open Syntax

variable {m m' : Module} {comments : Option Comments} {settings : Settings}

/-! ### The diagnosis of a restructured module -/

namespace Syntax.Node

theorem extendsClause?_tree (n : Node) : n.extendsClause?.map tree = n.tree.extendsClause? := by
  rw [extendsClause?, Tree.extendsClause?, ← children_tree, List.find?_map, Option.map_bind,
    Option.bind_map]
  congr 1
  funext heritage
  show _ = heritage.tree.nodes.find? _
  rw [← children_tree, List.find?_map]
  rfl

theorem baseTypeArguments_tree (n : Node) :
    n.baseTypeArguments.map tree = n.tree.baseTypeArguments := by
  have hinner : ((n.child? .value).bind fun value =>
        if value.kind = .instantiationExpression then
          value.children.find? (·.kind == .typeArguments) else none).map tree =
      (n.tree.child? .value).bind fun value =>
        if value.kind = .instantiationExpression then
          value.nodes.find? (·.kind == .typeArguments) else none := by
    rw [← child?_tree, Option.map_bind, Option.bind_map]
    congr 1
    funext value
    show Option.map _ (if value.tree.kind = .instantiationExpression then _ else _) =
      if value.tree.kind = .instantiationExpression then _ else _
    split
    · rw [← children_tree, List.find?_map]
      rfl
    · rfl
  rw [baseTypeArguments, Tree.baseTypeArguments, ← hinner, ← child?_tree, ← Option.map_or]
  cases (n.child? .typeArguments).or _ with
  | none => rfl
  | some arguments => exact arguments.parts_tree

end Syntax.Node

/-- A module that exports a class by its name and has no helper variable is found
    to lack the helper. -/
theorem diagnose_eq_missingHelper {className : String} {E cls clause : Tree}
    (hexport : m.tree.parts.find? (·.isDefaultExport) = some E) (hE : ExportsName className E)
    (hclass : declaredIn Kind.isClass className m.tree.parts = some cls)
    (hclause : cls.extendsClause? = some clause)
    (hcount : clause.baseTypeArguments.length = 3 ∨ settings.argumentPolicy ≠ .error)
    (hhelper : variableIn settings.helperVariable m.tree.parts = none) :
    diagnose m settings = .missingHelper := by
  -- The exporting statement
  obtain ⟨stmt, hstmt, rfl⟩ : ∃ stmt, m.statements.find? (·.isDefaultExport) = some stmt ∧
      stmt.tree = E := by
    have hdefault : (fun n : Node => n.isDefaultExport) = (·.isDefaultExport) ∘ Node.tree := by
      funext n
      exact n.isDefaultExport_tree
    rw [← m.statements_tree, List.find?_map, ← hdefault] at hexport
    exact Option.map_eq_some_iff.mp hexport
  -- The class that it names
  obtain ⟨c, hc, rfl⟩ : ∃ c, m.classNamed? className = some c ∧ c.tree = cls := by
    rw [← m.declarationOfKind?_tree] at hclass
    exact Option.map_eq_some_iff.mp hclass
  have hby : m.classExportedBy? stmt = some c := by
    obtain ⟨e, he, hident⟩ := Option.map_eq_some_iff.mp hE.exported
    rw [← stmt.exported?_tree] at he
    obtain ⟨e, hexported, rfl⟩ := Option.map_eq_some_iff.mp he
    have hkind : e.kind = .identifier := (Prod.mk.inj hident).1
    have htext : e.text = className := (Prod.mk.inj hident).2
    rw [Module.classExportedBy?, hexported, Option.bind_some, hkind, htext]
    exact hc
  obtain ⟨node, hnode, rfl⟩ : ∃ node, c.extendsClause? = some node ∧ node.tree = clause := by
    rw [← c.extendsClause?_tree] at hclause
    exact Option.map_eq_some_iff.mp hclause
  rw [← node.baseTypeArguments_tree, List.length_map] at hcount
  have hnone : m.variableNamed? settings.helperVariable = none := by
    rw [← m.variableNamed?_tree] at hhelper
    exact Option.map_eq_none_iff.mp hhelper
  unfold diagnose
  rw [hstmt]
  dsimp only
  rw [hby]
  dsimp only
  rw [hnode]
  dsimp only
  rw [if_neg fun h => hcount.elim h.1 fun hpolicy => hpolicy h.2, hnone]

namespace Course

variable {c : Course comments settings m} {x : ExportedClass} {v : Variable} {home : Node}
  {kept : Node → Tree} {D R N E : Tree}

/-- A statement that is kept is an export by default if it was one before. -/
theorem Keeps.isDefaultExport {n : Node} {t : Tree} (h : c.Keeps n t) :
    t.isDefaultExport = n.tree.isDefaultExport := by
  rcases h with rfl | ⟨-, type, hdocuments⟩
  · rfl
  · exact hdocuments.exports

/-- A property that neither the trees of the pass nor the statements that it keeps
    have is nowhere in the module after the pass. -/
theorem Completed.lacks {p : Tree → Bool} (h : c.Completed x v home kept D R N E)
    (hp : ∀ t, p t = true → t.isPart = true) (hD : p D = false) (hN : p N = false)
    (hR : v.declaration.declarators.length ≠ 1 → p R = false)
    (hothers : ∀ rn ∈ m.located, rn.2.start ≠ x.holding.start →
      rn.2.start ≠ x.exporting.start → rn.2.start ≠ v.statement.start →
      rn.2.tree.unwrap.kind ≠ .typeAliasDeclaration → p (kept rn.2) = false) :
    ∀ t ∈ m.located.flatMap (x.block v home (c.joinedParts kept D R N)), p t = false := by
  intro t ht
  obtain ⟨rn, hrn, ht⟩ := List.mem_flatMap.mp ht
  rcases mem_block hrn ht with ⟨rfl, -⟩ | ⟨rfl, -⟩ | hleft
  · exact hD
  · exact hN
  · exact hleft.lacks_kept hp hR hothers

/-- A statement that is kept lacks a property that it lacked before, if namespaces
    lack it. -/
theorem Completed.kept_lacks {p : Tree → Bool} (h : c.Completed x v home kept D R N E)
    (hp : ∀ t, p t = true → t.isPart = true)
    (hnamespace : ∀ t : Tree, t.unwrap.kind.isNamespace = true → p t = false) {rn : Row × Node}
    (hrn : rn ∈ m.located) (hlacks : rn.2 ∈ m.statements → p rn.2.tree = false) :
    p (kept rn.2) = false := by
  rcases h.keeps rn hrn with hsame | ⟨hdeclares, type, hdocuments⟩
  · rw [hsame]
    cases hpart : rn.2.tree.isPart with
    | false => exact lacks_of_not_part hp hpart
    | true => exact hlacks (m.mem_statements_of_located hrn hpart)
  · refine hnamespace _ ?_
    rw [hdocuments.declared]
    exact (Bool.and_eq_true_iff.mp hdeclares).1

/-- The class stands in the module after the pass. -/
theorem WorksOn.mem_class (hw : c.WorksOn x v home) :
    D ∈ m.located.flatMap (x.block v home (c.joinedParts kept D R N)) := by
  obtain ⟨r, hr⟩ := m.exists_row_of_statement hw.holding_mem
  refine List.mem_flatMap.mpr ⟨_, hr, ?_⟩
  rw [ExportedClass.block, if_neg (hw.not_alias_of_touched hr (Or.inl (Or.inl (Or.inl rfl)))),
    ExportedClass.joinedBlock, ExportedClass.ownBlock, if_pos rfl]
  exact List.mem_append_left _ (List.mem_append_right _ (.head _))

end Course

theorem variableIn_eq_none {name : String} {ts : List Tree}
    (h : ∀ t ∈ ts, t.declaresVariable name = false) : variableIn name ts = none := by
  refine findSome?_eq_none fun t ht => ?_
  have hlacks := h t ht
  rw [Tree.declaresVariable] at hlacks
  split
  · next hkind =>
    rw [hkind, Bool.true_and] at hlacks
    exact List.find?_eq_none.mpr (List.any_eq_false.mp hlacks)
  · rfl

/-- The one declaration with a name is found. -/
theorem declaredIn_of_only {p : Kind → Bool} {name : String} {ts : List Tree} {t : Tree}
    (hmem : t ∈ ts) (ht : t.declares p name = true)
    (honly : ∀ u ∈ ts, u.declares p name = true → u = t) :
    declaredIn p name ts = some t.unwrap := by
  have hfirst : ts.find? (·.declares p name) = some t := by
    obtain ⟨u, hu⟩ := Option.isSome_iff_exists.mp (List.find?_isSome.mpr ⟨t, hmem, ht⟩)
    have hdeclares := List.find?_some hu
    rw [hu, honly u (List.mem_of_find?_eq_some hu) hdeclares]
  have hfind : declaredIn p name ts = (ts.find? (·.declares p name)).map Tree.unwrap :=
    Module.findSome?_of_find? fun _ _ => rfl
  rw [hfind, hfirst, Option.map_some]

/-! ### Two passes -/

theorem ExportedClass.length_argumentTexts (x : ExportedClass) (hcount :
    x.clause.baseTypeArguments.length = 3 ∨ settings.argumentPolicy ≠ .error) :
    x.argumentTexts.length = 3 ∨ settings.argumentPolicy ≠ .error := by
  refine hcount.imp_left fun hthree => ?_
  have hall : x.clause.baseTypeArguments.length = AliasKind.all.length := hthree
  rw [argumentTexts, if_pos hall]
  rfl

namespace Course

variable {c : Course comments settings m} {x : ExportedClass} {v : Variable} {home : Node}
  {kept : Node → Tree} {D R N E : Tree}

/-- The base class has as many type arguments as the first stage asks for. -/
theorem WorksOn.count_arguments (hw : c.WorksOn x v home) :
    x.clause.baseTypeArguments.length = 3 ∨ settings.argumentPolicy ≠ .error := by
  have hends := normalizeExport_ends m comments settings
  rw [c.normalizes] at hends
  cases hends with
  | plans hx hcount _ _ =>
  have hsame := hx.exportedClass?
  rw [hw.exported.exportedClass?] at hsame
  rw [Option.some.inj hsame]
  exact hcount

/-- After the pass only the last statement exports by default. -/
theorem Completed.no_export (hw : c.WorksOn x v home) (h : c.Completed x v home kept D R N E)
    (hexport : (m.statements.filter (·.isDefaultExport)).length = 1) :
    ∀ t ∈ m.located.flatMap (x.block v home (c.joinedParts kept D R N)),
      t.isDefaultExport = false := by
  obtain ⟨blocks, type, -, -, -, hN⟩ := h.namespaced
  refine h.lacks (fun _ => Tree.isPart_of_isDefaultExport)
    (Tree.isDefaultExport_of_ambient h.declared.1.kind) (Tree.isDefaultExport_of_ambient hN.kind)
    (fun hmore => hw.remains_isDefaultExport hexport (h.remaining hmore).1) ?_
  intro rn hrn _ hexporting _ _
  rw [(h.keeps rn hrn).isDefaultExport]
  cases hpart : rn.2.tree.isPart with
  | false => exact lacks_of_not_part (fun _ => Tree.isPart_of_isDefaultExport) hpart
  | true => exact hw.sole_export hexport _ (m.mem_statements_of_located hrn hpart) hexporting

theorem Completed.find_export (h : c.Completed x v home kept D R N E)
    (hnone : ∀ t ∈ m.located.flatMap (x.block v home (c.joinedParts kept D R N)),
      t.isDefaultExport = false) :
    c.exported.tree.parts.find? (·.isDefaultExport) = some E := by
  have hE := h.exports.1.exports
  have hnone : ((m.located.flatMap (x.block v home (c.joinedParts kept D R N))).filter
      Tree.isPart).find? (·.isDefaultExport) = none := by
    refine List.find?_eq_none.mpr fun t ht => ?_
    rw [hnone t (List.mem_filter.mp ht).1]
    exact Bool.false_ne_true
  rw [Tree.parts, h.nodes, List.filter_append, List.find?_append, hnone, Option.none_or,
    List.filter_cons_of_pos (Tree.isPart_of_isDefaultExport hE), List.find?_cons_of_pos hE]

/-- After the pass only one statement declares a class of the name. -/
theorem Completed.only_class (hw : c.WorksOn x v home) (h : c.Completed x v home kept D R N E)
    (hclass : (m.statements.filter (·.tree.holdsClass c.className)).length = 1) {t : Tree}
    (ht : t ∈ c.exported.tree.parts) (hdeclares : t.declares Kind.isClass c.className = true) :
    t = D := by
  obtain ⟨blocks, type, -, -, -, hN⟩ := h.namespaced
  have hpart : ∀ t : Tree, t.declares Kind.isClass c.className = true → t.isPart = true :=
    fun _ => declaresParts_class.isPart_of_declares
  -- It is enough to refute the trees other than the class.
  by_contra hne
  refine Bool.eq_false_iff.mp ?_ hdeclares
  have ht := (List.mem_filter.mp ht).1
  rw [h.nodes, List.mem_append, List.mem_singleton] at ht
  rcases ht with ht | rfl
  · obtain ⟨rn, hrn, ht⟩ := List.mem_flatMap.mp ht
    rcases mem_block hrn ht with ⟨rfl, -⟩ | ⟨rfl, -⟩ | hleft
    · exact absurd rfl hne
    · exact Tree.declares_eq_false (Kind.isNamespace_cases hN.declared).1 _
    · refine hleft.lacks_kept hpart
        (fun hmore => Tree.declares_eq_false (hw.remains_kind (h.remaining hmore).1).1 _) ?_
      intro rn hrn hholding _ _ _
      refine h.kept_lacks hpart
        (fun t ht => Tree.declares_eq_false (Kind.isNamespace_cases ht).1 _) hrn fun hstmt => ?_
      have hno := hw.sole_class hclass _ hstmt hholding
      rw [Tree.holdsClass, Bool.or_eq_false_iff] at hno
      exact hno.1
  · exact Tree.declares_eq_false (by rw [h.exports.1.plain]; rfl) _

/-- After the pass no statement declares the helper variable. -/
theorem Completed.no_helper (hw : c.WorksOn x v home) (h : c.Completed x v home kept D R N E)
    (hhelper : (m.topLevelDeclarators.filter
      (·.name? == some settings.helperVariable)).length = 1) :
    ∀ t ∈ c.exported.tree.parts, t.declaresVariable settings.helperVariable = false := by
  obtain ⟨blocks, type, -, -, -, hN⟩ := h.namespaced
  obtain ⟨honce, hgone⟩ := Module.declarators_once hw.helper hhelper
  have hno : ∀ {t : Tree}, t.unwrap.kind.isVariables = false →
      t.declaresVariable settings.helperVariable = false := by
    intro t ht
    rw [Tree.declaresVariable, ht, Bool.false_and]
  intro t ht
  have ht := (List.mem_filter.mp ht).1
  rw [h.nodes, List.mem_append, List.mem_singleton] at ht
  rcases ht with ht | rfl
  · refine h.lacks (fun _ => Tree.isPart_of_declaresVariable)
      (hno (Kind.isClass_cases h.declared.1.declared).2.1)
      (hno (Kind.isNamespace_cases hN.declared).2.1)
      (fun hmore => (h.remaining hmore).1.lacks hgone) ?_ t ht
    intro rn hrn _ _ hvariable _
    exact h.kept_lacks (fun _ => Tree.isPart_of_declaresVariable)
      (fun t ht => hno (Kind.isNamespace_cases ht).2.1) hrn fun hstmt => honce _ hstmt hvariable
  · exact hno (by rw [h.exports.1.plain]; rfl)

/-- A module after a pass lacks the helper and nothing that is looked for before. -/
theorem Completed.diagnose_eq (hw : c.WorksOn x v home) (h : c.Completed x v home kept D R N E)
    (hexport : (m.statements.filter (·.isDefaultExport)).length = 1)
    (hclass : (m.statements.filter (·.tree.holdsClass c.className)).length = 1)
    (hhelper : (m.topLevelDeclarators.filter
      (·.name? == some settings.helperVariable)).length = 1)
    (htree : m'.tree = c.exported.tree) : diagnose m' settings = .missingHelper := by
  have hD := h.declared.1
  have hDclass : D.declares Kind.isClass c.className = true := by
    rw [hw.name]
    exact hD.declares_class
  have hDmem : D ∈ c.exported.tree.parts := by
    refine List.mem_filter.mpr ⟨?_, declaresParts_class.isPart_of_declares hDclass⟩
    rw [h.nodes]
    exact List.mem_append_left _ hw.mem_class
  obtain ⟨clause, hclause, harguments⟩ := Option.map_eq_some_iff.mp hD.base
  have hcount : clause.baseTypeArguments.length = 3 ∨ settings.argumentPolicy ≠ .error := by
    have hlength := congrArg List.length harguments
    rw [List.length_map] at hlength
    rw [hlength]
    exact x.length_argumentTexts hw.count_arguments
  have hfind := h.find_export (h.no_export hw hexport)
  have honly := fun t ht => h.only_class hw hclass (t := t) ht
  have hnone := h.no_helper hw hhelper
  rw [← htree] at hfind hDmem honly hnone
  exact diagnose_eq_missingHelper hfind h.exports.1 (declaredIn_of_only hDmem hDclass honly) hclause
    hcount (variableIn_eq_none hnone)

end Course

/-- A pass on a module that lacks the helper fails for that reason, and with rollback
    it leaves the module alone. -/
theorem process_of_missingHelper {s : Session} (hcomplete : CompleteComments comments)
    (hlocal : ReadsNormalized comments settings s.module)
    (hrollback : settings.rollbackOnFailure = true)
    (hdiagnosis : diagnose s.module settings = .missingHelper) :
    (process comments settings s).1 =
        .ok (.failure (.missingHelper settings.helperVariable) true) ∧
      (process comments settings s).2.module = s.module := by
  have hends := process_ends comments settings s
  generalize (process comments settings s).1 = result at hends ⊢
  generalize (process comments settings s).2.module = after at hends ⊢
  -- Any other end has a diagnosis of its own.
  cases hends with
  | unexported hplan =>
    have hword := (diagnose_of_normalizeExport hplan).1
    have hearly := word_of_normalizeExport hplan
    rw [hword, hdiagnosis] at hearly
    exact absurd hearly (by decide)
  | @unextracted plan m₁ f hplan happly hextract =>
    have hsaid := said_of_extractTypes hcomplete hlocal hplan happly hextract true
    have hfailure := extractTypes_ends m₁ settings
    rw [hextract] at hfailure
    rw [hrollback]
    have hword : f.word = "missing_helper_variable" := by
      rw [show f.word = _ from hsaid.word, hdiagnosis]
      rfl
    cases hfailure with
    | noHelper => exact ⟨rfl, rfl⟩
    | noMember =>
      have hmember : "missing_helper_member" = "missing_helper_variable" := hword
      exact absurd hmember (by decide)
  | refused hbatch h => exact absurd h (hbatch.not_refused _)
  | completed c =>
    cases hdiagnosis.symm.trans (c.diagnosed hcomplete hlocal)

/-- A second pass on what a pass has written fails for want of the helper, and leaves
    every byte of it as it is. -/
theorem process_again (comments comments' : Option Comments) (settings : Settings)
    {s s' t : Session} {className : String} {documented : Nat}
    (hcomplete : CompleteComments comments) (hcomplete' : CompleteComments comments')
    (hlocal : ReadsLocally comments settings s.module)
    (hlocal' : ReadsNormalized comments' settings t.module)
    (hrollback : settings.rollbackOnFailure = true)
    (hexport : (s.module.statements.filter (·.isDefaultExport)).length = 1)
    (hclass : (s.module.statements.filter (·.tree.holdsClass className)).length = 1)
    (hhelper : (s.module.topLevelDeclarators.filter
      (·.name? == some settings.helperVariable)).length = 1)
    (hsuccess : process comments settings s = (.ok (.success className documented), s'))
    (hwritten : t.module.source = s'.module.source) :
    (process comments' settings t).1 =
        .ok (.failure (.missingHelper settings.helperVariable) true) ∧
      (process comments' settings t).2.module.source = s'.module.source := by
  obtain ⟨c, rfl, -, hmodule⟩ := course_of_success hsuccess
  obtain ⟨x, v, home, hw⟩ := c.exists_worksOn hcomplete hlocal.first
  obtain ⟨kept, D, R, N, E, hcompleted⟩ := hw.nodes_exported hcomplete hlocal
  have htree : t.module.tree = c.exported.tree := by
    rw [t.module.tree_eq, hwritten, hmodule, c.exported.tree_eq]
  have hdiagnosis := hcompleted.diagnose_eq hw hexport hclass hhelper htree
  obtain ⟨hresult, hleft⟩ := process_of_missingHelper hcomplete' hlocal' hrollback hdiagnosis
  refine ⟨hresult, ?_⟩
  rw [hleft, hwritten]

/-- A pass without comments on what the pass on the small component has written. -/
theorem process_again_small : ∃ documented s',
    process smallComments smallSettings ⟨smallModule, []⟩ =
      (.ok (.success "A" documented), s') ∧
    (process none smallSettings s').1 = .ok (.failure (.missingHelper "h") true) ∧
    (process none smallSettings s').2.module.source = s'.module.source := by
  obtain ⟨documented, s', hsuccess⟩ := process_small
  obtain ⟨hexport, hclass, -⟩ := counts_small
  have hnone : CompleteComments none := ⟨nofun, nofun⟩
  have hagain : ReadsNormalized none smallSettings s'.module := by
    obtain ⟨c, -, -, hmodule⟩ := course_of_success hsuccess
    rw [hmodule]
    exact readsNormalized_of_check
      (exported_of_check (Bool.and_eq_true_iff.mp checks_small).2 c)
  obtain ⟨hresult, hleft⟩ := process_again (s := ⟨smallModule, []⟩) (t := s') smallComments none
    smallSettings completeComments_small hnone readsLocally_small hagain rfl hexport hclass
    helper_small hsuccess rfl
  exact ⟨documented, s', hsuccess, hresult, hleft⟩

end ComponentDecl
