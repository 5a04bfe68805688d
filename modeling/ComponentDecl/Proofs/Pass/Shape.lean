import ComponentDecl.Proofs.Pass.Frame

/-! # The shape of a module after a pass

    A module with one class, one default export and one helper variable has a
    plain shape after a pass: the ambient class, its namespace right after it, and
    the export of the class; no loose alias and no helper variable.

    Key theorem:
    - `process_shape`: the shape of a module after a pass
-/

namespace ComponentDecl

open Syntax Text

variable {m : Module} {comments : Option Comments} {settings : Settings}

/-- The variables that the statements of a module declare. -/
def Module.topLevelDeclarators (m : Module) : List Node :=
  m.statements.flatMap fun stmt =>
    if stmt.unwrap.kind.isVariables then stmt.unwrap.declarators else []

/-! ### One of a kind -/

/-- Where one declarator has a name, no other statement declares it, and it is gone
    once one of the name is taken out. -/
theorem Module.declarators_once {name : String} {v : Variable}
    (hv : m.variableNamed? name = some v)
    (hone : (m.topLevelDeclarators.filter (·.name? == some name)).length = 1) :
    (∀ stmt ∈ m.statements, stmt.start ≠ v.statement.start →
        stmt.tree.declaresVariable name = false) ∧
      some name ∉ v.otherNames := by
  obtain ⟨hstmt, hdeclaration, hkind, hdeclarator, hname⟩ := variableNamed?_spec hv
  let declared : Node → List Node := fun stmt =>
    if stmt.unwrap.kind.isVariables then stmt.unwrap.declarators else []
  let named : Node → Bool := fun d => d.name? == some name
  obtain ⟨before, after, hsplit⟩ := List.append_of_mem hstmt
  have hown : declared v.statement = v.declaration.declarators := by
    rw [hdeclaration] at hkind
    rw [hdeclaration]
    exact if_pos hkind
  have hcounts : ((before.flatMap declared).filter named).length +
      ((v.declaration.declarators.filter named).length +
        ((after.flatMap declared).filter named).length) = 1 := by
    rw [← hone, topLevelDeclarators, hsplit, List.flatMap_append, List.flatMap_cons,
      List.filter_append, List.filter_append, List.length_append, List.length_append, ← hown]
  have hmem : v.declarator ∈ v.declaration.declarators.filter named :=
    List.mem_filter.mpr ⟨hdeclarator, beq_iff_eq.mpr hname⟩
  -- The one declarator of the name is the one found, so there is none elsewhere.
  have hpos := List.length_pos_of_mem hmem
  have hothers : ∀ stmt ∈ before ++ after, stmt.tree.declaresVariable name = false := by
    intro stmt hmem
    by_contra hdeclares
    rw [Bool.not_eq_false, Tree.declaresVariable, Bool.and_eq_true, ← Node.unwrap_tree,
      ← Node.declarators_tree, List.any_map, List.any_eq_true] at hdeclares
    obtain ⟨hvariables, d, hd, hdname⟩ := hdeclares
    have hfound : d ∈ declared stmt := by
      rw [show declared stmt = stmt.unwrap.declarators from if_pos hvariables]
      exact hd
    have hnamed : named d = true := by
      rw [Function.comp_apply, ← Node.name?_tree] at hdname
      exact hdname
    rcases List.mem_append.mp hmem with h | h
    · have := List.length_pos_of_mem
        (List.mem_filter.mpr ⟨List.mem_flatMap.mpr ⟨stmt, h, hfound⟩, hnamed⟩)
      omega
    · have := List.length_pos_of_mem
        (List.mem_filter.mpr ⟨List.mem_flatMap.mpr ⟨stmt, h, hfound⟩, hnamed⟩)
      omega
  refine ⟨fun stmt hmem hne => hothers stmt ?_, ?_⟩
  · rw [hsplit] at hmem
    rcases List.mem_append.mp hmem with h | h
    · exact List.mem_append_left _ h
    · rcases List.mem_cons.mp h with rfl | h
      · exact absurd rfl hne
      · exact List.mem_append_right _ h
  · have hone : (v.declaration.declarators.map (·.name?)).count (some name) = 1 := by
      rw [List.count, List.countP_map, List.countP_eq_length_filter]
      show (v.declaration.declarators.filter named).length = 1
      omega
    rw [Variable.otherNames, hname]
    refine List.count_eq_zero.mp ?_
    rw [List.count_erase_self, hone]

/-! ### Around the class -/

namespace Course

variable {c : Course comments settings m} {x : ExportedClass} {v : Variable}
  {kept : Node → Tree} {D R N E : Tree}

/-- The class, its namespace and the export stand among trees that are left. -/
theorem Completed.split (h : c.Completed x v x.holding kept D R N E)
    (hw : c.WorksOn x v x.holding) :
    ∃ before after, c.exported.tree.nodes =
        before ++ D :: .token none .comment (Namespace.docText c.className) :: N ::
          (after ++ [E]) ∧
      ∀ t ∈ before ++ after, IsLeft x v kept R t m := by
  have hm := hw.readable
  obtain ⟨r, hr⟩ := m.exists_row_of_statement hw.holding_mem
  obtain ⟨l, l', hlocated⟩ := List.append_of_mem hr
  have hrising := m.located_rising hm
  rw [hlocated] at hrising
  obtain ⟨-, hcons, hlt⟩ := List.pairwise_append.mp hrising
  have hgt := (List.pairwise_cons.mp hcons).1
  have hmem : ∀ rn, rn ∈ l ∨ rn ∈ l' → rn ∈ m.located ∧ rn.2.start ≠ x.holding.start := by
    intro rn hrn
    rw [hlocated]
    rcases hrn with h | h
    · exact ⟨List.mem_append_left _ h, Nat.ne_of_lt (hlt rn h (r, x.holding) (.head _))⟩
    · exact ⟨List.mem_append_right _ (.tail _ h), Nat.ne_of_gt (hgt rn h)⟩
  have hleft : ∀ rn, rn ∈ l ∨ rn ∈ l' →
      ∀ t ∈ x.block v x.holding (c.joinedParts kept D R N) rn, IsLeft x v kept R t m := by
    intro rn hrn t ht
    obtain ⟨hrn, haway⟩ := hmem rn hrn
    exact ((mem_block hrn ht).resolve_left fun h => haway h.2).resolve_left fun h => haway h.2
  have hdocs : ∀ t ∈ r.docs.map (·.tree), t.isPart = false := fun t ht => m.docs_not_parts hr ht
  have hhome : x.block v x.holding (c.joinedParts kept D R N) (r, x.holding) =
      r.docs.map (·.tree) ++ (describedBy comments).toList.map (.token none .comment) ++
        [D, .token none .comment (Namespace.docText c.className), N] := by
    have hkind := hw.not_alias_of_touched hr (Or.inr rfl)
    rw [ExportedClass.block, if_neg hkind, ExportedClass.joinedBlock, if_pos rfl,
      ExportedClass.ownBlock]
    dsimp only
    rw [if_pos rfl, List.append_assoc]
    rfl
  -- The row with the class holds the three that are named; the rest is left over.
  refine ⟨l.flatMap (x.block v x.holding (c.joinedParts kept D R N)) ++
    (r.docs.map (·.tree) ++ (describedBy comments).toList.map (.token none .comment)),
    l'.flatMap (x.block v x.holding (c.joinedParts kept D R N)), ?_, fun t ht => ?_⟩
  · rw [h.nodes, hlocated, List.flatMap_append, List.flatMap_cons, hhome]
    simp
  · rw [List.mem_append, List.mem_append, List.mem_append] at ht
    rcases ht with (ht | ht | ht) | ht
    · obtain ⟨rn, hrn, ht⟩ := List.mem_flatMap.mp ht
      exact hleft rn (Or.inl hrn) t ht
    · exact Or.inl (hdocs t ht)
    · obtain ⟨text, -, rfl⟩ := List.mem_map.mp ht
      exact Or.inl rfl
    · obtain ⟨rn, hrn, ht⟩ := List.mem_flatMap.mp ht
      exact hleft rn (Or.inr hrn) t ht

/-- Of the trees after a pass, only the class, the namespace and the export can have
    a property that what is left lacks. -/
theorem filter_among {p : Tree → Bool} {before after : List Tree} {D doc N E : Tree}
    (hleft : ∀ t ∈ before ++ after, p t = false) (hdoc : p doc = false) :
    (before ++ D :: doc :: N :: (after ++ [E])).filter p = [D, N, E].filter p := by
  have hnone : ∀ {ts : List Tree}, (∀ t ∈ ts, p t = false) → ts.filter p = [] := by
    intro ts h
    refine List.filter_eq_nil_iff.mpr fun t ht => ?_
    rw [h t ht]
    exact Bool.false_ne_true
  have hbefore := hnone fun t ht => hleft t (List.mem_append_left _ ht)
  have hafter := hnone fun t ht => hleft t (List.mem_append_right _ ht)
  have hsplit : before ++ D :: doc :: N :: (after ++ [E]) =
      before ++ ([D] ++ ([doc] ++ ([N] ++ (after ++ [E])))) := by simp
  have hsingle : [doc].filter p = [] := hnone fun t ht => by rwa [List.mem_singleton.mp ht]
  have htriple : [D, N, E] = [D] ++ ([N] ++ [E]) := rfl
  rw [hsplit, htriple]
  simp only [List.filter_append]
  rw [hbefore, hafter, hsingle]
  simp only [List.nil_append]

/-- What is left lacks a property that the other statements of the module lack, and
    that comments for props do not bring. -/
theorem IsLeft.lacks_kept {p : Tree → Bool} (hp : ∀ t, p t = true → t.isPart = true) {t : Tree}
    (ht : IsLeft x v kept R t m) (hR : v.declaration.declarators.length ≠ 1 → p R = false)
    (hothers : ∀ rn ∈ m.located, rn.2.start ≠ x.holding.start →
      rn.2.start ≠ x.exporting.start → rn.2.start ≠ v.statement.start →
      rn.2.tree.unwrap.kind ≠ .typeAliasDeclaration → p (kept rn.2) = false) : p t = false := by
  rcases ht with hpart | ⟨rfl, hmore⟩ | ⟨rn, hrn, rfl, hholding, hexporting, hhelper, hkind⟩
  · exact lacks_of_not_part hp hpart
  · exact hR hmore
  · exact hothers rn hrn hholding hexporting hhelper hkind

/-- What is left lacks a property that the other statements of the module lack. -/
theorem IsLeft.lacks {p : Tree → Bool} (hp : ∀ t, p t = true → t.isPart = true) {t : Tree}
    (ht : IsLeft x v kept R t m) (hkept : ∀ rn ∈ m.located, kept rn.2 = rn.2.tree)
    (hR : v.declaration.declarators.length ≠ 1 → p R = false)
    (hothers : ∀ stmt ∈ m.statements, stmt.start ≠ x.holding.start →
      stmt.start ≠ x.exporting.start → stmt.start ≠ v.statement.start →
      stmt.tree.unwrap.kind ≠ .typeAliasDeclaration → p stmt.tree = false) : p t = false := by
  refine ht.lacks_kept hp hR fun rn hrn hholding hexporting hhelper hkind => ?_
  rw [hkept rn hrn]
  cases hpart : rn.2.tree.isPart with
  | false => exact lacks_of_not_part hp hpart
  | true =>
    exact hothers rn.2 (m.mem_statements_of_located hrn hpart) hholding hexporting hhelper hkind

/-- Where one statement is an export by default, the class is exported by it. -/
theorem WorksOn.sole_export {home : Node} (hw : c.WorksOn x v home)
    (hexport : (m.statements.filter (·.isDefaultExport)).length = 1) :
    ∀ stmt ∈ m.statements, stmt.start ≠ x.exporting.start →
      stmt.tree.isDefaultExport = false := by
  intro stmt hstmt hne
  rw [← Node.isDefaultExport_tree]
  by_contra hdefault
  rw [Bool.not_eq_false] at hdefault
  exact hne (congrArg Node.start (eq_of_length_filter hexport hstmt hw.exported.exporting_mem
    hdefault (List.find?_some hw.exported.exporting)))

/-- What remains of the helper's statement is no export by default. -/
theorem WorksOn.remains_isDefaultExport {home : Node} (hw : c.WorksOn x v home)
    (hexport : (m.statements.filter (·.isDefaultExport)).length = 1) (hR : v.Remains R) :
    R.isDefaultExport = false := by
  rw [hR.exports, Node.isDefaultExport_tree]
  exact hw.sole_export hexport _ hw.helper_mem hw.helper_apart.2

/-- Where one statement holds a class of the name, it is the exported one. -/
theorem WorksOn.sole_class {home : Node} (hw : c.WorksOn x v home)
    (hclass : (m.statements.filter (·.tree.holdsClass c.className)).length = 1) :
    ∀ stmt ∈ m.statements, stmt.start ≠ x.holding.start →
      stmt.tree.holdsClass c.className = false := by
  intro stmt hstmt hne
  by_contra hholds
  rw [Bool.not_eq_false] at hholds
  have hexported : x.holding.tree.holdsClass c.className = true := by
    rw [hw.name]
    exact hw.exported.holdsClass
  exact hne (congrArg Node.start
    (eq_of_length_filter hclass hstmt hw.holding_mem hholds hexported))

/-- Only the class, the namespace and the export can have a property that the other
    statements of the module lack. -/
theorem Completed.filter_made (h : c.Completed x v x.holding kept D R N E)
    (hw : c.WorksOn x v x.holding) (hnone : m.namespaceNamed? c.className = none)
    {p : Tree → Bool} (hp : ∀ t, p t = true → t.isPart = true)
    (hR : v.declaration.declarators.length ≠ 1 → p R = false)
    (hothers : ∀ stmt ∈ m.statements, stmt.start ≠ x.holding.start →
      stmt.start ≠ x.exporting.start → stmt.start ≠ v.statement.start →
      stmt.tree.unwrap.kind ≠ .typeAliasDeclaration → p stmt.tree = false) :
    c.exported.tree.nodes.filter p = [D, N, E].filter p := by
  obtain ⟨before, after, hnodes, hleft⟩ := h.split hw
  rw [hnodes]
  refine filter_among (fun t ht => ?_) (lacks_of_not_part hp rfl)
  exact (hleft t ht).lacks hp (fun _ hrn => h.kept_eq hnone hrn) hR hothers

/-- A property that, among the statements, the class, the namespace and the export
    lack too is nowhere in the module. -/
theorem Completed.nowhere (h : c.Completed x v x.holding kept D R N E)
    (hw : c.WorksOn x v x.holding) (hnone : m.namespaceNamed? c.className = none)
    {p : Tree → Bool} (hp : ∀ t, p t = true → t.isPart = true)
    (hmade : ∀ t ∈ [D, N, E], p t = false)
    (hR : v.declaration.declarators.length ≠ 1 → p R = false)
    (hothers : ∀ stmt ∈ m.statements, stmt.start ≠ x.holding.start →
      stmt.start ≠ x.exporting.start → stmt.start ≠ v.statement.start →
      stmt.tree.unwrap.kind ≠ .typeAliasDeclaration → p stmt.tree = false) :
    ∀ t ∈ c.exported.tree.nodes, p t = false := by
  have hfilter := h.filter_made hw hnone hp hR hothers
  rw [List.filter_eq_nil_iff.mpr fun t ht => Bool.eq_false_iff.mp (hmade t ht),
    List.filter_eq_nil_iff] at hfilter
  exact fun t ht => Bool.eq_false_iff.mpr (hfilter t ht)

end Course

/-! ### The shape -/

/-- Holds of the module after a pass if it has the ambient class, its namespace
    right after it and the export of the class once each, and neither loose
    aliases nor the helper variable. -/
def Shaped (settings : Settings) (className : String) (m m' : Module) : Prop :=
  ∃ (x : ExportedClass) (types : AliasKind → String) (before after : List Tree) (D N E : Tree),
    x.In m ∧ x.name = className ∧
    m'.tree.nodes = before ++ D :: .token none .comment (Namespace.docText className) :: N ::
      (after ++ [E]) ∧
    x.Declares D ∧ m'.tree.nodes.filter (·.holdsClass className) = [D] ∧
    DeclaresAliases className types N ∧
    m'.tree.nodes.filter (·.declares Kind.isNamespace className) = [N] ∧
    ExportsName className E ∧ m'.tree.nodes.filter (·.isDefaultExport) = [E] ∧
    (∀ t ∈ m'.tree.nodes, t.unwrap.kind ≠ .typeAliasDeclaration) ∧
    ∀ t ∈ m'.tree.nodes, t.declaresVariable settings.helperVariable = false

theorem Syntax.Tree.isPart_of_isDefaultExport {t : Tree} (h : t.isDefaultExport = true) :
    t.isPart = true := by
  rw [isDefaultExport, Bool.and_eq_true, beq_iff_eq] at h
  rw [isPart, h.1]
  rfl

theorem Syntax.Tree.isPart_of_holdsClass {name : String} {t : Tree}
    (h : t.holdsClass name = true) : t.isPart = true := by
  rw [holdsClass, Bool.or_eq_true, Bool.and_eq_true] at h
  rcases h with h | h
  · exact declaresParts_class.isPart_of_declares h
  · exact isPart_of_isDefaultExport h.1

theorem Syntax.Tree.isDefaultExport_of_ambient {t : Tree} (h : t.kind = .ambientDeclaration) :
    t.isDefaultExport = false := by
  rw [isDefaultExport, h]
  rfl

/-- The class that a pass makes is the one of its name. -/
theorem ExportedClass.Declares.holdsClass {x : ExportedClass} {D : Tree} (h : x.Declares D)
    (name : String) : D.holdsClass name = (x.name == name) := by
  rw [Tree.holdsClass, Tree.declares, h.declared, h.name, Tree.isDefaultExport_of_ambient h.kind,
    Bool.false_and, Bool.or_false, Bool.true_and]
  exact Option.some_beq_some

/-- The namespace that a pass makes is no class. -/
theorem DeclaresAliases.holdsClass {className : String} {types : AliasKind → String} {N : Tree}
    (h : DeclaresAliases className types N) (name : String) : N.holdsClass name = false := by
  rw [Tree.holdsClass, Tree.declares_eq_false (Kind.isNamespace_cases h.declared).1,
    Tree.isDefaultExport_of_ambient h.kind]
  rfl

/-- The statement that exports the class in the end does not hold it. -/
theorem ExportsName.holdsClass {className : String} {E : Tree} (h : ExportsName className E)
    (name : String) : E.holdsClass name = false := by
  obtain ⟨e, he, hident⟩ := Option.map_eq_some_iff.mp h.exported
  have hclass : e.kind.isClass = false := by
    rw [(Prod.mk.inj hident).1]
    rfl
  rw [Tree.holdsClass, Tree.declares_eq_false (by rw [h.plain]; rfl), he, Option.any_some, hclass]
  exact Bool.and_false _

/-- The class, the namespace and the export are of a kind each. -/
theorem kinds_apart {x : ExportedClass} {types : AliasKind → String} {D N E : Tree}
    (hD : x.Declares D) (hN : DeclaresAliases x.name types N) (hE : ExportsName x.name E) :
    [D, N, E].filter (·.holdsClass x.name) = [D] ∧
      [D, N, E].filter (·.declares Kind.isNamespace x.name) = [N] ∧
      [D, N, E].filter (·.isDefaultExport) = [E] ∧
      (∀ t ∈ [D, N, E], t.unwrap.kind ≠ .typeAliasDeclaration) ∧
      ∀ t ∈ [D, N, E], ∀ name, t.declaresVariable name = false := by
  obtain ⟨-, hDvariables, hDtype, hDnamespace, -⟩ := Kind.isClass_cases hD.declared
  obtain ⟨hNclass, hNvariables, hNtype⟩ := Kind.isNamespace_cases hN.declared
  have hDdefault := Tree.isDefaultExport_of_ambient hD.kind
  have hNdefault := Tree.isDefaultExport_of_ambient hN.kind
  have hEkind := hE.plain
  have hDholds : D.holdsClass x.name = true := (hD.holdsClass x.name).trans (beq_self_eq_true _)
  have hNholds := hN.holdsClass x.name
  have hEholds := hE.holdsClass x.name
  have hNdeclares := hN.declares_namespace
  have hEdeclares : E.declares Kind.isNamespace x.name = false :=
    Tree.declares_eq_false (by rw [hEkind]; rfl) _
  refine ⟨?_, ?_, ?_, fun t ht => ?_, fun t ht name => ?_⟩
  · simp [hDholds, hNholds, hEholds]
  · simp [Tree.declares_eq_false hDnamespace, hNdeclares, hEdeclares]
  · simp [hDdefault, hNdefault, hE.exports]
  · simp only [List.mem_cons, List.not_mem_nil, or_false] at ht
    rcases ht with rfl | rfl | rfl
    · exact Kind.ne_alias hDtype
    · exact Kind.ne_alias hNtype
    · rw [hEkind]
      decide
  · simp only [List.mem_cons, List.not_mem_nil, or_false] at ht
    rw [Tree.declaresVariable]
    rcases ht with rfl | rfl | rfl
    · rw [hDvariables, Bool.false_and]
    · rw [hNvariables, Bool.false_and]
    · rw [hEkind]
      rfl

/-- What remains of a declaration of variables no longer declares a name that no other
    variable of it had. -/
theorem Variable.Remains.lacks {v : Variable} {R : Tree} (hR : v.Remains R) {name : String}
    (hgone : some name ∉ v.otherNames) : R.declaresVariable name = false := by
  by_contra h
  rw [Bool.not_eq_false, Tree.declaresVariable, Bool.and_eq_true, List.any_eq_true] at h
  obtain ⟨-, d, hd, hname⟩ := h
  refine hgone ?_
  rw [← hR.declarators, ← beq_iff_eq.mp hname]
  exact List.mem_map_of_mem hd

/-- A pass that succeeds leaves a module in shape. -/
theorem process_shape (comments : Option Comments) (settings : Settings) {s s' : Session}
    {className : String} {documented : Nat} (hcomplete : CompleteComments comments)
    (hlocal : ReadsLocally comments settings s.module)
    (hsuccess : process comments settings s = (.ok (.success className documented), s'))
    (hexport : (s.module.statements.filter (·.isDefaultExport)).length = 1)
    (hclass : (s.module.statements.filter (·.tree.holdsClass className)).length = 1)
    (hnamespace : s.module.namespaceNamed? className = none)
    (hhelper : (s.module.topLevelDeclarators.filter
      (·.name? == some settings.helperVariable)).length = 1) :
    Shaped settings className s.module s'.module := by
  obtain ⟨c, rfl, -, hmodule⟩ := course_of_success hsuccess
  obtain ⟨x, v, home, hw⟩ := c.exists_worksOn hcomplete hlocal.first
  obtain rfl := hw.home_eq hclass
  obtain ⟨kept, D, R, N, E, hcompleted⟩ := hw.nodes_exported hcomplete hlocal
  obtain ⟨before, after, hnodes, hleft⟩ := hcompleted.split hw
  obtain ⟨blocks, type, -, -, -, hN⟩ := hcompleted.namespaced
  have hD := hcompleted.declared.1
  have hE := hcompleted.exports.1
  have hR := fun hmore => (hcompleted.remaining hmore).1
  obtain ⟨honce, hgone⟩ := Module.declarators_once hw.helper hhelper
  rw [hw.name] at hN hE hnodes
  obtain ⟨hclasses, hnamespaces, hexports, haliases, hvariables⟩ := kinds_apart hD hN hE
  have hRdefault : v.declaration.declarators.length ≠ 1 → R.isDefaultExport = false :=
    fun hmore => hw.remains_isDefaultExport hexport (hR hmore)
  have hRholds : v.declaration.declarators.length ≠ 1 → R.holdsClass c.className = false := by
    intro hmore
    rw [Tree.holdsClass, Tree.declares_eq_false (hw.remains_kind (hR hmore)).1, hRdefault hmore]
    rfl
  -- What is found once before the pass is found once after it, at another place.
  have honeClass := hcompleted.filter_made hw hnamespace (fun _ => Tree.isPart_of_holdsClass)
    hRholds fun stmt hstmt hholding _ _ _ => hw.sole_class hclass stmt hstmt hholding
  have honeNamespace := hcompleted.filter_made hw hnamespace
    (fun _ => declaresParts_namespace.isPart_of_declares)
    (fun hmore => Tree.declares_eq_false (hw.remains_kind (hR hmore)).2.1 _)
    fun stmt hstmt _ _ _ _ => Module.declares_namespace_eq_false hnamespace stmt hstmt
  have honeExport := hcompleted.filter_made hw hnamespace
    (fun _ => Tree.isPart_of_isDefaultExport) hRdefault
    fun stmt hstmt _ hexporting _ _ => hw.sole_export hexport stmt hstmt hexporting
  have hnoAlias := hcompleted.nowhere hw hnamespace (fun _ => Tree.isPart_of_alias)
    (fun t ht => beq_eq_false_iff_ne.mpr (haliases t ht))
    (fun hmore => beq_eq_false_iff_ne.mpr (Kind.ne_alias (hw.remains_kind (hR hmore)).2.2))
    fun stmt _ _ _ _ hkind => beq_eq_false_iff_ne.mpr hkind
  have hnoHelper := hcompleted.nowhere hw hnamespace
    (fun _ => Tree.isPart_of_declaresVariable) (fun t ht => hvariables t ht _)
    (fun hmore => (hR hmore).lacks hgone)
    fun stmt hstmt _ _ hhelper _ => honce stmt hstmt hhelper
  rw [hw.name] at honeClass honeNamespace
  rw [hmodule, hw.name]
  exact ⟨x, withProps type c.extraction.result.get, before, after, D, N, E, hw.exported, rfl,
    hnodes, hD, honeClass.trans hclasses, hN, honeNamespace.trans hnamespaces, hE,
    honeExport.trans hexports, fun t ht => beq_eq_false_iff_ne.mp (hnoAlias t ht), hnoHelper⟩

/-- The small component has one helper variable. -/
theorem helper_small : (smallModule.topLevelDeclarators.filter
    (·.name? == some smallSettings.helperVariable)).length = 1 := by
  decide +kernel

/-- The small component with a description and a comment for its prop. -/
theorem process_shape_small : ∃ documented s',
    process smallComments smallSettings ⟨smallModule, []⟩ =
      (.ok (.success "A" documented), s') ∧
    Shaped smallSettings "A" smallModule s'.module := by
  obtain ⟨documented, s', hsuccess⟩ := process_small
  obtain ⟨hexport, hclass, hnamespace⟩ := counts_small
  exact ⟨documented, s', hsuccess, process_shape smallComments smallSettings
    completeComments_small readsLocally_small hsuccess hexport hclass
    (Option.isNone_iff_eq_none.mp hnamespace) helper_small⟩

end ComponentDecl
