import ComponentDecl.Proofs.Pass.Classification

/-! # The statements of a restructured module

    A pass that succeeds leaves most statements of a module where they are.  The
    class statement gets another head, the exporting statement, the helper
    variable and the loose aliases go, the namespace comes after the class, and
    the export comes last.  The stages are followed one by one; after each of
    them the rows of the module are blocks, one for each row before the pass.
    Here are the first three stages.

    Key theorems:
    - `WorksOn.rows_normalized`, `WorksOn.rows_extracted`, `WorksOn.rows_joined`:
      the blocks after each stage
-/

namespace ComponentDecl

open Syntax Text

variable {m : Module} {comments : Option Comments} {settings : Settings}

/-! ### What becomes of a row -/

/-- What stands in a restructured module for the parts of it, as trees or as
    texts. -/
structure Parts (α : Type) where
  /-- What stands for a doc comment. -/
  comment : Tree → α
  /-- What stands for a statement that stays. -/
  kept : Node → α
  /-- The description above the class. -/
  description : List α
  /-- The class. -/
  declared : α
  /-- The statement of the helper variable without that variable. -/
  remaining : α
  /-- The namespace with its doc comment. -/
  namespaced : List α

namespace ExportedClass

/-- What a row becomes, but for the namespace. -/
def ownBlock {α : Type} (x : ExportedClass) (v : Variable) (parts : Parts α) (rn : Row × Node) :
    List α :=
  let docs := rn.1.docs.map fun d => parts.comment d.tree
  if rn.2.start = x.holding.start then docs ++ parts.description ++ [parts.declared]
  else if rn.2.start = x.exporting.start then []
  else if rn.2.start = v.statement.start then
    if v.declaration.declarators.length = 1 then [] else docs ++ [parts.remaining]
  else docs ++ [parts.kept rn.2]

/-- What a row becomes before the loose aliases go. -/
def joinedBlock {α : Type} (x : ExportedClass) (v : Variable) (home : Node) (parts : Parts α)
    (rn : Row × Node) : List α :=
  x.ownBlock v parts rn ++ if rn.2.start = home.start then parts.namespaced else []

/-- What a row becomes. -/
def block {α : Type} (x : ExportedClass) (v : Variable) (home : Node) (parts : Parts α)
    (rn : Row × Node) : List α :=
  if rn.2.tree.unwrap.kind = .typeAliasDeclaration then [] else x.joinedBlock v home parts rn

/-- Holds of the statement of the class, and of those that declare a class of its
    name. -/
def isHome (x : ExportedClass) (n : Node) : Bool :=
  n.start == x.holding.start || n.tree.declares Kind.isClass x.name

end ExportedClass

/-- The trees of a restructured module. -/
def treeParts (comments : Option Comments) (kept : Node → Tree) (D R : Tree)
    (namespaced : List Tree) : Parts Tree where
  comment := id
  kept := kept
  description := (describedBy comments).toList.map (.token none .comment)
  declared := D
  remaining := R
  namespaced := namespaced

/-- What a course works on: the class, the helper variable, and the statement
    that the namespace comes after. -/
structure Course.WorksOn (c : Course comments settings m) (x : ExportedClass) (v : Variable)
    (home : Node) : Prop where
  exported : x.In m
  name : c.className = x.name
  edits : c.normalization.edits.Perm ((if x.exporting.start ≠ x.holding.start then
    [m.removeStatement x.exporting] else []) ++ x.edits comments)
  helper : m.variableNamed? settings.helperVariable = some v
  home : m.statements.find? x.isHome = some home

namespace Course

variable {c : Course comments settings m} {x : ExportedClass} {v : Variable} {home : Node}

namespace WorksOn

theorem readable (hw : c.WorksOn x v home) : m.Readable :=
  m.readable_of_statement hw.exported.exporting_mem
    (Or.inr (List.find?_some hw.exported.exporting))

theorem holding_mem (hw : c.WorksOn x v home) : x.holding ∈ m.statements :=
  hw.exported.holding_mem

theorem home_mem (hw : c.WorksOn x v home) : home ∈ m.statements :=
  List.mem_of_find?_eq_some hw.home

theorem helper_mem (hw : c.WorksOn x v home) : v.statement ∈ m.statements :=
  (Module.variableNamed?_spec hw.helper).1

/-- The statement of the helper variable holds variables. -/
theorem helper_kind (hw : c.WorksOn x v home) : v.statement.tree.unwrap.kind.isVariables = true := by
  obtain ⟨-, hdeclaration, hkind, -⟩ := Module.variableNamed?_spec hw.helper
  rw [← Node.unwrap_tree, ← hdeclaration]
  exact hkind

/-- The helper variable stands in a statement of its own. -/
theorem helper_apart (hw : c.WorksOn x v home) :
    v.statement.start ≠ x.holding.start ∧ v.statement.start ≠ x.exporting.start :=
  hw.exported.variable_apart hw.readable hw.helper

/-- The helper's statement does not hold the class. -/
theorem helper_away (hw : c.WorksOn x v home) : v.statement.start ≠ home.start := by
  intro hstart
  have hhome := List.find?_some hw.home
  rw [ExportedClass.isHome, Bool.or_eq_true, beq_iff_eq] at hhome
  rcases hhome with h | h
  · exact hw.helper_apart.1 (hstart.trans h)
  · obtain ⟨r, hr⟩ := m.exists_row_of_statement hw.helper_mem
    obtain rfl := m.node_eq_of_start hw.readable hr hw.home_mem hstart
    rw [Tree.declares_eq_false (Kind.isVariables_cases hw.helper_kind).1] at h
    cases h

end WorksOn

/-- Where the trees of a block come from. -/
theorem mem_ownBlock {kept : Node → Tree} {D R : Tree} {ns : List Tree} {rn : Row × Node}
    (hrn : rn ∈ m.located) {t : Tree}
    (ht : t ∈ x.ownBlock v (treeParts comments kept D R ns) rn) :
    t.isPart = false ∨ (t = D ∧ rn.2.start = x.holding.start) ∨
      (t = R ∧ v.declaration.declarators.length ≠ 1) ∨
      (t = kept rn.2 ∧ rn.2.start ≠ x.holding.start ∧ rn.2.start ≠ x.exporting.start ∧
        rn.2.start ≠ v.statement.start) := by
  have hdocs : t ∈ rn.1.docs.map (·.tree) → t.isPart = false := m.docs_not_parts hrn
  unfold ExportedClass.ownBlock at ht
  dsimp only at ht
  split at ht
  · next hholding =>
    rw [List.mem_append, List.mem_append, List.mem_singleton] at ht
    rcases ht with (ht | ht) | ht
    · exact Or.inl (hdocs ht)
    · obtain ⟨text, -, rfl⟩ := List.mem_map.mp ht
      exact Or.inl rfl
    · exact Or.inr (Or.inl ⟨ht, hholding⟩)
  split at ht
  · cases ht
  split at ht
  · split at ht
    · cases ht
    · next hmore =>
      rw [List.mem_append, List.mem_singleton] at ht
      rcases ht with ht | ht
      · exact Or.inl (hdocs ht)
      · exact Or.inr (Or.inr (Or.inl ⟨ht, hmore⟩))
  · next hholding hexporting hhelper =>
    rw [List.mem_append, List.mem_singleton] at ht
    rcases ht with ht | ht
    · exact Or.inl (hdocs ht)
    · exact Or.inr (Or.inr (Or.inr ⟨ht, hholding, hexporting, hhelper⟩))

/-- Where the class, what remains of the helper's statement and the statement
    itself lack a property, all trees of a block do. -/
theorem lacks_ownBlock {p : Tree → Bool} (hp : ∀ t, p t = true → t.isPart = true)
    {kept : Node → Tree} {D R : Tree} {ns : List Tree} {rn : Row × Node} (hrn : rn ∈ m.located)
    (hD : rn.2.start = x.holding.start → p D = false)
    (hR : v.declaration.declarators.length ≠ 1 → p R = false) (hkept : p (kept rn.2) = false) :
    ∀ t ∈ x.ownBlock v (treeParts comments kept D R ns) rn, p t = false := by
  intro t ht
  rcases mem_ownBlock hrn ht with hpart | ⟨rfl, hholding⟩ | ⟨rfl, hmore⟩ | ⟨rfl, -⟩
  · exact lacks_of_not_part hp hpart
  · exact hD hholding
  · exact hR hmore
  · exact hkept

namespace WorksOn

/-- Where the class of the name is not the exported one, it does not stand in the
    exporting statement either. -/
theorem home_apart (hw : c.WorksOn x v home) (hne : home.start ≠ x.holding.start) :
    home.start ≠ x.exporting.start := by
  intro hstart
  obtain ⟨r, hr⟩ := m.exists_row_of_statement hw.home_mem
  have hnode : home = x.exporting :=
    m.node_eq_of_start hw.readable hr hw.exported.exporting_mem hstart
  have hhome := List.find?_some hw.home
  rw [ExportedClass.isHome, Bool.or_eq_true, beq_iff_eq] at hhome
  have hclass := hhome.resolve_left hne
  rw [hnode, Tree.declares_eq_false (hw.exported.exporting_apart hw.readable (hstart ▸ hne))]
    at hclass
  cases hclass

theorem isPart_of_isHome (hw : c.WorksOn x v home) {rn : Row × Node} (hrn : rn ∈ m.located)
    (h : x.isHome rn.2 = true) : rn.2.tree.isPart = true := by
  rw [ExportedClass.isHome, Bool.or_eq_true, beq_iff_eq] at h
  rcases h with h | h
  · rw [m.node_eq_of_start hw.readable hrn hw.holding_mem h]
    exact (List.mem_filter.mp hw.holding_mem).2
  · exact declaresParts_class.isPart_of_declares h

/-- What remains of the helper's statement holds variables. -/
theorem remains_kind (hw : c.WorksOn x v home) {R : Tree} (hR : v.Remains R) :
    R.unwrap.kind.isClass = false ∧ R.unwrap.kind.isNamespace = false ∧
      R.unwrap.kind.isTypeDeclaration = false := by
  obtain ⟨-, -, hkind, -⟩ := Module.variableNamed?_spec hw.helper
  rw [hR.declaration]
  exact Kind.isVariables_cases hkind

/-- The last tree in the place of the statement that the namespace comes after is
    a class of the name. -/
theorem homeBlock (hw : c.WorksOn x v home) {r : Row} (hr : (r, home) ∈ m.located) {D R : Tree}
    (hD : x.Declares D) :
    ∃ X T, (∀ ns, x.ownBlock v (treeParts comments Node.tree D R ns) (r, home) = X ++ [T]) ∧
      (∀ t ∈ X, t.isPart = false) ∧ T.declares Kind.isClass x.name = true := by
  have hdocs : ∀ t ∈ r.docs.map (·.tree), t.isPart = false := fun t ht => m.docs_not_parts hr ht
  unfold ExportedClass.ownBlock
  dsimp only
  by_cases hholding : home.start = x.holding.start
  · refine ⟨r.docs.map (·.tree) ++ (describedBy comments).toList.map (.token none .comment), D,
      fun _ => if_pos hholding, List.forall_mem_append.mpr ⟨hdocs, fun t ht => ?_⟩, ?_⟩
    · obtain ⟨text, -, rfl⟩ := List.mem_map.mp ht
      rfl
    · exact hD.declares_class
  · refine ⟨_, home.tree, fun ns => ?_, hdocs, ?_⟩
    · rw [if_neg hholding, if_neg (hw.home_apart hholding), if_neg hw.helper_away.symm]
      rfl
    · have hhome := List.find?_some hw.home
      rw [ExportedClass.isHome, Bool.or_eq_true, beq_iff_eq] at hhome
      exact hhome.resolve_left hholding

end WorksOn

/-! ### Stage by stage -/

/-- What a row has become after the first batch. -/
def normalizedBlock (x : ExportedClass) (v : Variable) (parts : Parts Tree) (rn : Row × Node) :
    List Tree :=
  if rn.2.start = v.statement.start then rn.1.docs.map (·.tree) ++ [rn.2.tree]
  else x.ownBlock v parts rn

theorem flatRows_single {rn : Row × Node} (h : rn ∈ m.located) :
    flatRows [rn.1.trees] = rn.1.docs.map (·.tree) ++ [rn.2.tree] := by
  rw [Module.trees_located h]
  simp

/-- The first batch puts the description and the declared class in the place of
    the class, and takes a separate export away. -/
theorem WorksOn.rows_normalized (hw : c.WorksOn x v home) (hcomplete : CompleteComments comments)
    (hfirst : ReadsNormalized comments settings m) :
    ∃ D, x.Declares D ∧ D.spell = x.declaredText ∧
      ∀ R ns, InBlocks m c.normalized
        (fun n => n.start = x.holding.start ∨ n.start = x.exporting.start)
        (normalizedBlock x v (treeParts comments Node.tree D R ns)) := by
  have hm := hw.readable
  have hx := hw.exported
  have hlocal := hfirst x _ _ hx c.normalizes c.toNormalized
  have hperm := ExportedClass.perm_changes hm hx hw.edits
  obtain ⟨hreadable, -⟩ := m.nodes_changes hm (ExportedClass.changes_fit hm hx)
    (ExportedClass.changes_rising hm hx) hperm c.toNormalized hlocal
  obtain ⟨trees, htrees, hrows⟩ := m.rows_changes hm (ExportedClass.changes_fit hm hx)
    (ExportedClass.changes_rising hm hx) hperm c.toNormalized hlocal
  obtain ⟨r, hr⟩ := m.exists_row_of_statement hx.holding_mem
  have hat : x.changes comments x.holding =
      some (.becomes (x.edits comments) (x.declaredTrees comments)) := if_pos rfl
  obtain ⟨D, hD, hspell, hdeclares⟩ :=
    ExportedClass.reads_declaredTrees hcomplete (htrees (r, x.holding) hr _ _ hat)
  refine ⟨D, hdeclares, hspell, fun R ns => ⟨hreadable,
    fun rn => rn.1.revised (trees rn.2) (x.changes comments rn.2), hrows, fun rn hrn => ?_,
    fun rn hrn h => ?_⟩⟩
  · unfold normalizedBlock ExportedClass.ownBlock
    dsimp only
    -- The statement is the one that holds the class, the one that exports it, or neither.
    by_cases hholding : rn.2.start = x.holding.start
    · have hne : rn.2.start ≠ v.statement.start := hholding ▸ hw.helper_apart.1.symm
      have hnode := m.node_eq_of_start hm hrn hx.holding_mem hholding
      rw [if_neg hne, if_pos hholding, hnode, hat, flatRows_revised, hD, List.append_assoc]
      rfl
    · rw [if_neg hholding]
      by_cases hexporting : rn.2.start = x.exporting.start
      · have hne : rn.2.start ≠ v.statement.start := hexporting ▸ hw.helper_apart.2.symm
        have hgoes : x.changes comments rn.2 = some .goes := by
          rw [ExportedClass.changes, Module.changeBoth, if_neg hholding, if_pos hexporting]
        rw [if_neg hne, if_pos hexporting, hgoes]
        rfl
      · have hstays : x.changes comments rn.2 = none := by
          rw [ExportedClass.changes, Module.changeBoth, if_neg hholding, if_neg hexporting]
        rw [hstays, show rn.1.revised _ none = [rn.1.trees] from rfl, flatRows_single hrn,
          if_neg hexporting]
        split
        · rfl
        · rfl
  · rw [not_or] at h
    have hstays : x.changes comments rn.2 = none := by
      rw [ExportedClass.changes, Module.changeBoth, if_neg h.1, if_neg h.2]
    dsimp only
    rw [hstays]
    rfl

/-- No tree before the helper's statement declares the helper variable.  The blocks
    hold nothing that remains of it yet, so the class may stand for that. -/
theorem WorksOn.no_helper_before (hw : c.WorksOn x v home) {D : Tree} (hD : x.Declares D) :
    ∀ rn ∈ m.located, rn.2.start < v.statement.start →
      ∀ t ∈ normalizedBlock x v (treeParts comments Node.tree D D []) rn,
        t.declaresVariable settings.helperVariable = false := by
  intro rn hrn hlt
  have hpart : ∀ t : Tree, t.declaresVariable settings.helperVariable = true → t.isPart = true :=
    fun _ => Tree.isPart_of_declaresVariable
  have hclass : D.declaresVariable settings.helperVariable = false := by
    rw [Tree.declaresVariable, (Kind.isClass_cases hD.declared).2.1, Bool.false_and]
  rw [normalizedBlock, if_neg (Nat.ne_of_lt hlt)]
  exact lacks_ownBlock hpart hrn (fun _ => hclass) (fun _ => hclass)
    (m.first_of_located hw.readable (Module.variableNamed?_first hw.helper) hrn (hpart _) hlt)

/-- The row of the helper's statement after the second batch. -/
theorem WorksOn.ownBlock_helper (hw : c.WorksOn x v home) (D R : Tree) (ns : List Tree) (r : Row) :
    x.ownBlock v (treeParts comments Node.tree D R ns) (r, v.statement) =
      if v.declaration.declarators.length = 1 then [] else r.docs.map (·.tree) ++ [R] := by
  simp only [ExportedClass.ownBlock, if_neg hw.helper_apart.1, if_neg hw.helper_apart.2,
    if_pos, treeParts]
  rfl

/-- The other rows stay what the first batch has made of them. -/
theorem ownBlock_others (D R : Tree) (ns : List Tree) {rn : Row × Node}
    (hne : rn.2.start ≠ v.statement.start) :
    x.ownBlock v (treeParts comments Node.tree D R ns) rn =
      normalizedBlock x v (treeParts comments Node.tree D D []) rn := by
  rw [normalizedBlock, if_neg hne]
  simp only [ExportedClass.ownBlock, if_neg hne, treeParts]

/-- The second batch takes the helper variable away. -/
theorem WorksOn.rows_extracted (hw : c.WorksOn x v home) (hlocal : c.Local) {D : Tree}
    (hD : x.Declares D)
    (hblocks : ∀ R ns, InBlocks m c.normalized
      (fun n => n.start = x.holding.start ∨ n.start = x.exporting.start)
      (normalizedBlock x v (treeParts comments Node.tree D R ns))) :
    ∃ R, (v.declaration.declarators.length ≠ 1 → R.spell = v.remainingText m ∧ v.Remains R) ∧
      ∀ ns, InBlocks m c.extracted
        (fun n => (n.start = x.holding.start ∨ n.start = x.exporting.start) ∨
          n.start = v.statement.start)
        (x.ownBlock v (treeParts comments Node.tree D R ns)) := by
  have hm := hw.readable
  have hₖ := (hblocks D []).readable
  have hpart : ∀ t : Tree, t.declaresVariable settings.helperVariable = true → t.isPart = true :=
    fun _ => Tree.isPart_of_declaresVariable
  have hextract := extractTypes_ends c.normalized settings
  rw [c.extracts] at hextract
  cases hextract with
  | @plans v₁ hv₁ hall plan htypes hedits =>
  obtain ⟨r₀, hr₀⟩ := m.exists_row_of_statement hw.helper_mem
  have hfirst₁ := Module.variableNamed?_first hv₁
  have hdeclares : v.statement.tree.declaresVariable settings.helperVariable = true := by
    have hp := List.find?_some (Module.variableNamed?_first hw.helper)
    exact hp
  have happly := c.toExtracted
  rw [hedits] at happly
  have hreads := hlocal.extracted v₁ hv₁
  rw [Variable.changes] at hreads
  have hbefore := hw.no_helper_before hD
  have hat : normalizedBlock x v (treeParts comments Node.tree D D []) (r₀, v.statement) =
      r₀.docs.map (·.tree) ++ [v.statement.tree] := if_pos rfl
  have hdocs : ∀ t ∈ r₀.docs.map (·.tree), t.declaresVariable settings.helperVariable = false :=
    fun t ht => lacks_of_not_part hpart (m.docs_not_parts hr₀ ht)
  have htree : v₁.statement.tree = v.statement.tree :=
    (hblocks D []).tree_of_first hm hpart hfirst₁ hr₀ hbefore hat hdocs hdeclares
  obtain ⟨hlength, htext⟩ := Variable.remainingText_congr hm hₖ hw.helper hv₁ htree
  have huntouched : ¬ ((r₀, v.statement).2.start = x.holding.start ∨
      (r₀, v.statement).2.start = x.exporting.start) := not_or.mpr hw.helper_apart
  by_cases hone : v.declaration.declarators.length = 1
  · -- A variable that is alone takes its statement with it.
    have hone₁ := hlength.trans hone
    obtain ⟨-, hedit⟩ := (Module.removeVariable_spec hₖ hv₁).resolve_right fun h => h.1 hone₁
    rw [hedit] at happly
    rw [Variable.change, if_pos hone₁] at hreads
    have hremoved := (hblocks D []).remove hm hpart hfirst₁ hr₀ hbefore huntouched hdeclares happly
      hreads
    exact ⟨D, fun hmore => absurd hone hmore, fun ns => hremoved _
      (by rw [hw.ownBlock_helper, if_pos hone]) fun _ _ hne => ownBlock_others D D ns hne⟩
  · -- Of several variables the others remain, and what remains is one tree again.
    obtain ⟨rv, hrv⟩ := c.normalized.exists_row_of_statement (Module.variableNamed?_spec hv₁).1
    have hfits := Variable.changes_fit hₖ hv₁ _ hrv (v₁.change c.normalized) (if_pos rfl)
    rw [Variable.change, if_neg (hlength ▸ hone)] at hreads hfits
    obtain ⟨ts, hts, hrevised⟩ := (hblocks D []).revise hm hpart hfirst₁ hr₀ hbefore hat hdocs
      hdeclares hfits (List.pairwise_singleton _ _) happly hreads
    cases hts with
    | @cons _ R _ _ hread hnil =>
    cases hnil
    refine ⟨R, fun hmore => ⟨hread.1.trans (htext hmore), ?_⟩, fun ns => hrevised _
      (by rw [hw.ownBlock_helper, if_neg hone]) fun _ _ hne => ownBlock_others D R ns hne⟩
    exact Variable.remains_congr hw.helper hv₁ htree (decide_eq_true_eq.mp hread.2)

/-- No tree before the block of the class is a class of the name. -/
theorem WorksOn.no_class_before (hw : c.WorksOn x v home) {D R : Tree}
    (hR : v.declaration.declarators.length ≠ 1 → v.Remains R) :
    ∀ rn ∈ m.located, rn.2.start < home.start →
      ∀ t ∈ x.ownBlock v (treeParts comments Node.tree D R []) rn,
        t.declares Kind.isClass c.className = false := by
  intro rn hrn hlt
  have hhome := m.first_of_located hw.readable hw.home hrn (hw.isPart_of_isHome hrn) hlt
  rw [ExportedClass.isHome, Bool.or_eq_false_iff, beq_eq_false_iff_ne, ← hw.name] at hhome
  exact lacks_ownBlock (fun _ => declaresParts_class.isPart_of_declares) hrn
    (fun h => absurd h hhome.1)
    (fun hmore => Tree.declares_eq_false (hw.remains_kind (hR hmore)).1 _) hhome.2

/-- After the second batch there is a class of the name. -/
theorem WorksOn.exists_class (hw : c.WorksOn x v home) (hcomplete : CompleteComments comments)
    (hfirst : ReadsNormalized comments settings m) (hlocal : c.Local) :
    c.extracted.Readable ∧ ∃ stmt,
      c.extracted.statements.find? (·.tree.declares Kind.isClass c.className) = some stmt := by
  obtain ⟨D, hD, -, hnormalized⟩ := hw.rows_normalized hcomplete hfirst
  obtain ⟨R, -, hextracted⟩ := hw.rows_extracted hlocal hD hnormalized
  obtain ⟨r, hr⟩ := m.exists_row_of_statement hw.home_mem
  obtain ⟨X, T, hown, -, hT⟩ := hw.homeBlock (R := R) hr hD
  rw [← hw.name] at hT
  exact ⟨(hextracted []).readable, (hextracted []).exists_first
    (fun _ => declaresParts_class.isPart_of_declares) hr (hown []) hT⟩

/-- The third batch puts the namespace after the statement of the class. -/
theorem WorksOn.rows_joined (hw : c.WorksOn x v home) (hlocal : c.Local) {D R : Tree}
    (hD : x.Declares D) (hR : v.declaration.declarators.length ≠ 1 → v.Remains R)
    (hblocks : ∀ ns, InBlocks m c.extracted
      (fun n => (n.start = x.holding.start ∨ n.start = x.exporting.start) ∨
        n.start = v.statement.start)
      (x.ownBlock v (treeParts comments Node.tree D R ns))) :
    ∃ N, NewNamespace settings c.className c.extraction.result N ∧ InBlocks m c.joined
      (fun n => ((n.start = x.holding.start ∨ n.start = x.exporting.start) ∨
        n.start = v.statement.start) ∨ n.start = home.start)
      (x.joinedBlock v home (treeParts comments Node.tree D R
        [.token none .comment (Namespace.docText c.className), N])) := by
  have hm := hw.readable
  have hpart : ∀ t : Tree, t.declares Kind.isClass c.className = true → t.isPart = true :=
    fun _ => declaresParts_class.isPart_of_declares
  obtain ⟨r₀, hr₀⟩ := m.exists_row_of_statement hw.home_mem
  obtain ⟨X, T, hown, hX, hT⟩ := hw.homeBlock (R := R) hr₀ hD
  rw [← hw.name] at hT
  have hbefore := hw.no_class_before (D := D) hR
  -- The batch changes the first statement that declares the class: the one put in at home.
  obtain ⟨stmt, hstmt⟩ := (hblocks []).exists_first hpart hr₀ (hown []) hT
  have hXlacks : ∀ t ∈ X, t.declares Kind.isClass c.className = false :=
    fun t ht => lacks_of_not_part hpart (hX t ht)
  have htree := (hblocks []).tree_of_first hm hpart hstmt hr₀ hbefore (hown []) hXlacks hT
  have happly : c.extracted.applyEdits (buildNamespace c.extracted c.className
      c.extraction.result settings).edits = .ok c.joined := c.toJoined
  rw [buildNamespace_edits hstmt] at happly
  obtain ⟨ts, hts, hjoined⟩ := (hblocks []).revise hm hpart hstmt hr₀ hbefore (hown []) hXlacks hT
    (joinChange_fits c.className c.extraction.result settings stmt) (List.pairwise_singleton _ _)
    happly (hlocal.joined stmt hstmt)
  obtain ⟨N, rfl, hspell, hN⟩ := reads_joinChange hts
  refine ⟨N, ⟨hspell, hN⟩, hjoined _ ?_ fun rn _ hne => ?_⟩
  · rw [ExportedClass.joinedBlock, if_pos rfl, hown, htree, List.append_assoc]
    rfl
  · rw [ExportedClass.joinedBlock, if_neg hne, List.append_nil]
    rfl

/-- After the third batch there is a namespace of the name. -/
theorem WorksOn.exists_namespace (hw : c.WorksOn x v home) (hcomplete : CompleteComments comments)
    (hfirst : ReadsNormalized comments settings m) (hlocal : c.Local) :
    c.joined.Readable ∧ ∃ stmt,
      c.joined.statements.find? (·.tree.declares Kind.isNamespace c.className) = some stmt := by
  obtain ⟨D, hD, -, hnormalized⟩ := hw.rows_normalized hcomplete hfirst
  obtain ⟨R, hR, hextracted⟩ := hw.rows_extracted hlocal hD hnormalized
  obtain ⟨N, hN, hjoined⟩ := hw.rows_joined hlocal hD (fun hmore => (hR hmore).2) hextracted
  obtain ⟨r, hr⟩ := m.exists_row_of_statement hw.home_mem
  have hblock : x.joinedBlock v home (treeParts comments Node.tree D R
      [.token none .comment (Namespace.docText c.className), N]) (r, home) =
      (x.ownBlock v (treeParts comments Node.tree D R
        [.token none .comment (Namespace.docText c.className), N]) (r, home) ++
        [.token none .comment (Namespace.docText c.className)]) ++ [N] := by
    rw [ExportedClass.joinedBlock, if_pos rfl, List.append_assoc]
    rfl
  exact ⟨hjoined.readable, hjoined.exists_first
    (fun _ => declaresParts_namespace.isPart_of_declares) hr hblock hN.declares.declares_namespace⟩

end Course

end ComponentDecl
