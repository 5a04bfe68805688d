import ComponentDecl.Proofs.Pass.Restructured

/-! # The statements of a completed module

    The last three stages document the props, take the loose aliases away and
    export the class.  Comments go into the first namespace of the class's name.
    That is the new one, unless the module had one before the class.

    Key theorem:
    - `Course.nodes_exported`: the trees of the module after a pass
-/

namespace ComponentDecl

open Syntax Text

variable {m : Module} {comments : Option Comments} {settings : Settings}

/-! ### One of a kind -/

/-- A list with one element of a kind has no other one. -/
theorem eq_of_length_filter {α : Type} {p : α → Bool} {l : List α}
    (h : (l.filter p).length = 1) {a b : α} (ha : a ∈ l) (hb : b ∈ l) (hpa : p a = true)
    (hpb : p b = true) : a = b := by
  obtain ⟨only, honly⟩ := List.length_eq_one_iff.mp h
  have hmem : ∀ c ∈ l, p c = true → c = only := by
    intro c hc hpc
    rw [← List.mem_singleton, ← honly]
    exact List.mem_filter.mpr ⟨hc, hpc⟩
  rw [hmem a ha hpa, hmem b hb hpb]

namespace Course

variable {c : Course comments settings m} {x : ExportedClass} {v : Variable} {home : Node}

/-! ### Comments of props -/

/-- Holds of what stands for a statement: the statement itself, or a namespace of
    the class's name with comments in it. -/
def Keeps (c : Course comments settings m) (n : Node) (t : Tree) : Prop :=
  t = n.tree ∨ n.tree.declares Kind.isNamespace c.className = true ∧
    ∃ type, Documents type n.tree t

/-- The trees of a module with the namespace in it. -/
def joinedParts (c : Course comments settings m) (kept : Node → Tree) (D R N : Tree) :
    Parts Tree :=
  treeParts comments kept D R [.token none .comment (Namespace.docText c.className), N]

/-- What has become of the module once the namespace is in it. -/
structure Joined (c : Course comments settings m) (x : ExportedClass) (v : Variable)
    (home : Node) (D R N : Tree) : Prop where
  declared : x.Declares D
  remaining : v.declaration.declarators.length ≠ 1 → v.Remains R
  namespaced : NewNamespace settings c.className c.extraction.result N
  blocks : InBlocks m c.joined
    (fun n => ((n.start = x.holding.start ∨ n.start = x.exporting.start) ∨
      n.start = v.statement.start) ∨ n.start = home.start)
    (x.joinedBlock v home (c.joinedParts Node.tree D R N))

/-- What has become of the module once the props are documented. -/
structure Documented (c : Course comments settings m) (x : ExportedClass) (v : Variable)
    (home : Node) (D R : Tree) (kept : Node → Tree) (N : Tree) : Prop where
  keeps : ∀ rn ∈ m.located, c.Keeps rn.2 (kept rn.2)
  namespaced : DocumentedNamespace comments settings c.className c.extraction.result N
  blocks : InBlocks m c.documented (fun n => n.tree.unwrap.kind ≠ .typeAliasDeclaration)
    (x.joinedBlock v home (c.joinedParts kept D R N))

namespace WorksOn

/-- The first stages touch neither types nor namespaces. -/
theorem kind_of_touched (hw : c.WorksOn x v home) {rn : Row × Node} (hrn : rn ∈ m.located)
    (h : ((rn.2.start = x.holding.start ∨ rn.2.start = x.exporting.start) ∨
      rn.2.start = v.statement.start) ∨ rn.2.start = home.start) :
    rn.2.tree.unwrap.kind.isTypeDeclaration = false ∧
      rn.2.tree.unwrap.kind.isNamespace = false := by
  have hm := hw.readable
  obtain ⟨hexporting, hholding⟩ := hw.exported.isExported hm
  -- The statement of the class may be the home of the namespace as well.
  have hheld : rn.2.start = x.holding.start → rn.2.tree.unwrap.kind.isTypeDeclaration = false ∧
      rn.2.tree.unwrap.kind.isNamespace = false := by
    intro h
    rw [m.node_eq_of_start hm hrn hw.holding_mem h]
    exact ⟨(Kind.isExported_cases hholding).2.2.1, (Kind.isExported_cases hholding).2.2.2.1⟩
  rcases h with ((h | h) | h) | h
  · exact hheld h
  · rw [m.node_eq_of_start hm hrn hw.exported.exporting_mem h]
    exact ⟨(Kind.isExported_cases hexporting).2.2.1, (Kind.isExported_cases hexporting).2.2.2.1⟩
  · rw [m.node_eq_of_start hm hrn hw.helper_mem h]
    have hvariables := Kind.isVariables_cases hw.helper_kind
    exact ⟨hvariables.2.2, hvariables.2.1⟩
  · have hnode := m.node_eq_of_start hm hrn hw.home_mem h
    have hhome := List.find?_some hw.home
    rw [ExportedClass.isHome, Bool.or_eq_true, beq_iff_eq] at hhome
    rcases hhome with hstart | hclass
    · exact hheld (h.trans hstart)
    · rw [Tree.declares, Bool.and_eq_true] at hclass
      rw [hnode]
      exact ⟨(Kind.isClass_cases hclass.1).2.2.1, (Kind.isClass_cases hclass.1).2.2.2.1⟩

/-- The first stages leave the loose aliases alone. -/
theorem not_alias_of_touched (hw : c.WorksOn x v home) {rn : Row × Node} (hrn : rn ∈ m.located)
    (h : ((rn.2.start = x.holding.start ∨ rn.2.start = x.exporting.start) ∨
      rn.2.start = v.statement.start) ∨ rn.2.start = home.start) :
    rn.2.tree.unwrap.kind ≠ .typeAliasDeclaration :=
  Kind.ne_alias (hw.kind_of_touched hrn h).1

variable {D R N : Tree}

/-- Without comments for props the fourth stage changes nothing. -/
theorem documented_none (hw : c.WorksOn x v home) (hjoined : c.Joined x v home D R N)
    (hnone : (reattachComments c.joined c.className comments).edits = []) :
    c.Documented x v home D R Node.tree N := by
  have hsame : c.documented = c.joined := by
    have happly : c.joined.applyEdits (reattachComments c.joined c.className comments).edits =
      .ok c.documented := c.toDocumented
    rw [hnone, c.joined.applyEdits_nil] at happly
    exact (Except.ok.inj happly).symm
  refine ⟨fun _ _ => Or.inl rfl, hjoined.namespaced.documented comments, ?_⟩
  rw [hsame]
  exact hjoined.blocks.mono fun rn hrn => hw.not_alias_of_touched hrn

/-- The first statement that the namespace comes after, or that declares a
    namespace of that name itself. -/
theorem exists_first_namespace (hw : c.WorksOn x v home) :
    ∃ rn ∈ m.located, (rn.2.start = home.start ∨
        rn.2.start ≠ home.start ∧ rn.2.tree.declares Kind.isNamespace c.className = true) ∧
      ∀ qn ∈ m.located, qn.2.start < rn.2.start →
        qn.2.start ≠ home.start ∧ qn.2.tree.declares Kind.isNamespace c.className = false := by
  have hm := hw.readable
  let p : Node → Bool := fun n =>
    n.start == home.start || n.tree.declares Kind.isNamespace c.className
  obtain ⟨first, hfirst⟩ : ∃ first, m.statements.find? p = some first := by
    refine Option.isSome_iff_exists.mp (List.find?_isSome.mpr ⟨home, hw.home_mem, ?_⟩)
    rw [Bool.or_eq_true]
    exact Or.inl (beq_self_eq_true home.start)
  obtain ⟨r, hr⟩ := m.exists_row_of_statement (List.mem_of_find?_eq_some hfirst)
  have hpart : ∀ qn ∈ m.located, p qn.2 = true → qn.2.tree.isPart = true := by
    intro qn hqn hp
    rw [Bool.or_eq_true, beq_iff_eq] at hp
    rcases hp with h | h
    · rw [m.node_eq_of_start hm hqn hw.home_mem h]
      exact (List.mem_filter.mp hw.home_mem).2
    · exact declaresParts_namespace.isPart_of_declares h
  refine ⟨_, hr, ?_, fun qn hqn hlt => ?_⟩
  · have hp := List.find?_some hfirst
    rw [Bool.or_eq_true, beq_iff_eq] at hp
    by_cases hstart : first.start = home.start
    · exact Or.inl hstart
    · exact Or.inr ⟨hstart, hp.resolve_left hstart⟩
  · have hp := m.first_of_located hm hfirst hqn (hpart qn hqn) hlt
    rwa [Bool.or_eq_false_iff, beq_eq_false_iff_ne] at hp

theorem isPart_of_namespace (t : Tree) (h : t.declares Kind.isNamespace c.className = true) :
    t.isPart = true :=
  declaresParts_namespace.isPart_of_declares h

/-- The fourth batch, where the first namespace of the name ends the block of a row: a
    documented tree comes in its place, and the other blocks stay. -/
theorem documented_at (hw : c.WorksOn x v home) (hlocal : c.Local)
    (hjoined : c.Joined x v home D R N) {docs : Comments} {stmt type : Node}
    (hdocs : comments = some docs) (htype : c.joined.PropsType c.className stmt type)
    (hedits : (reattachComments c.joined c.className comments).edits =
      c.joined.documentEdits docs type)
    (hsome : (reattachComments c.joined c.className comments).edits ≠ []) {at₀ : Row × Node}
    (hat : at₀ ∈ m.located) (hkind : at₀.2.tree.unwrap.kind ≠ .typeAliasDeclaration)
    (hfirst : ∀ rn ∈ m.located, rn.2.start < at₀.2.start →
      rn.2.start ≠ home.start ∧ rn.2.tree.declares Kind.isNamespace c.className = false)
    {X : List Tree} {T : Tree}
    (hblock : x.joinedBlock v home (c.joinedParts Node.tree D R N) at₀ = X ++ [T])
    (hX : ∀ t ∈ X, t.declares Kind.isNamespace c.className = false)
    (hT : T.declares Kind.isNamespace c.className = true) :
    stmt.tree = T ∧ ∃ T', T'.spell = c.joined.documentedStatement docs stmt type ∧
      Documents (String.ofList (c.joined.documentedType docs type)) T T' ∧
      ∀ B : Row × Node → List Tree, B at₀ = X ++ [T'] →
        (∀ rn ∈ m.located, rn.2.start ≠ at₀.2.start →
          B rn = x.joinedBlock v home (c.joinedParts Node.tree D R N) rn) →
        InBlocks m c.documented (fun n => n.tree.unwrap.kind ≠ .typeAliasDeclaration) B := by
  have hm := hw.readable
  have hblocks := hjoined.blocks
  have happly : c.joined.applyEdits (reattachComments c.joined c.className comments).edits =
    .ok c.documented := c.toDocumented
  rw [hedits] at happly
  have hreads := hlocal.documented docs stmt type hdocs htype hsome
  -- Neither the class nor what is left of the helper's statement is a namespace.
  have hbefore : ∀ rn ∈ m.located, rn.2.start < at₀.2.start →
      ∀ t ∈ x.joinedBlock v home (c.joinedParts Node.tree D R N) rn,
        t.declares Kind.isNamespace c.className = false := by
    intro rn hrn hlt
    obtain ⟨hhome, hno⟩ := hfirst rn hrn hlt
    rw [ExportedClass.joinedBlock, if_neg hhome, List.append_nil]
    exact lacks_ownBlock isPart_of_namespace hrn
      (fun _ => Tree.declares_eq_false (Kind.isClass_cases hjoined.declared.declared).2.2.2.1 _)
      (fun hmore => Tree.declares_eq_false (hw.remains_kind (hjoined.remaining hmore)).2.1 _) hno
  have htree := hblocks.tree_of_first hm isPart_of_namespace htype.statement hat hbefore hblock hX hT
  obtain ⟨ts, hts, hrevised⟩ := hblocks.revise hm isPart_of_namespace htype.statement hat hbefore
    hblock hX hT (documentChange_fits hblocks.readable htype docs)
    (c.joined.rising_documented hblocks.readable htype docs) happly hreads
  cases hts with
  | @cons _ T' _ _ hread hnil =>
  cases hnil
  have hdocuments := decide_eq_true_eq.mp hread.2
  rw [htree] at hdocuments
  refine ⟨htree, T', hread.1, hdocuments, fun B hB hothers => ?_⟩
  refine (hrevised B hB hothers).mono fun rn hrn h => ?_
  rcases h with h | h
  · exact hw.not_alias_of_touched hrn h
  · obtain rfl := m.located_eq_of_start hm hrn hat h
    exact hkind

/-- The fourth batch, if the first namespace of the name is the new one. -/
theorem documented_new (hw : c.WorksOn x v home) (hlocal : c.Local)
    (hjoined : c.Joined x v home D R N) {docs : Comments} {stmt type : Node}
    (hdocs : comments = some docs) (htype : c.joined.PropsType c.className stmt type)
    (hedits : (reattachComments c.joined c.className comments).edits =
      c.joined.documentEdits docs type)
    (hsome : (reattachComments c.joined c.className comments).edits ≠ []) {r : Row}
    (hr : (r, home) ∈ m.located)
    (hfirst : ∀ rn ∈ m.located, rn.2.start < home.start →
      rn.2.start ≠ home.start ∧ rn.2.tree.declares Kind.isNamespace c.className = false) :
    ∃ N', c.Documented x v home D R Node.tree N' := by
  obtain ⟨X, T, hown, hX, hT⟩ := hw.homeBlock (R := R) hr hjoined.declared
  have hblock : ∀ N, x.joinedBlock v home (c.joinedParts Node.tree D R N) (r, home) =
      (X ++ [T, .token none .comment (Namespace.docText c.className)]) ++ [N] := by
    intro N
    rw [joinedParts, ExportedClass.joinedBlock, if_pos rfl, hown, List.append_assoc,
      List.append_assoc]
    rfl
  -- Before the new namespace the block has comments, the class and nothing else.
  have hlacks : ∀ t ∈ X ++ [T, .token none .comment (Namespace.docText c.className)],
      t.declares Kind.isNamespace c.className = false := by
    intro t ht
    rw [List.mem_append, List.mem_pair] at ht
    rcases ht with h | rfl | rfl
    · exact lacks_of_not_part isPart_of_namespace (hX _ h)
    · rw [Tree.declares, Bool.and_eq_true] at hT
      exact Tree.declares_eq_false (Kind.isClass_cases hT.1).2.2.2.1 _
    · exact lacks_of_not_part isPart_of_namespace rfl
  obtain ⟨htree, N', hspell, hdocuments, hrevised⟩ := hw.documented_at hlocal hjoined hdocs htype
    hedits hsome hr (hw.not_alias_of_touched hr (Or.inr rfl)) hfirst (hblock N) hlacks
    hjoined.namespaced.declares.declares_namespace
  refine ⟨N', fun _ _ => Or.inl rfl, ?_, hrevised _ (hblock N') fun rn _ hne => ?_⟩
  · rw [← htree] at hdocuments
    exact NewNamespace.documents (by rw [htree]; exact hjoined.namespaced) hjoined.blocks.readable
      htype hdocs hspell hdocuments
  · rw [ExportedClass.joinedBlock, ExportedClass.joinedBlock, if_neg hne, if_neg hne]
    rfl

/-- The fourth batch, if the module had a namespace of the name before the class. -/
theorem documented_earlier (hw : c.WorksOn x v home) (hlocal : c.Local)
    (hjoined : c.Joined x v home D R N) {docs : Comments} {stmt type : Node}
    (hdocs : comments = some docs) (htype : c.joined.PropsType c.className stmt type)
    (hedits : (reattachComments c.joined c.className comments).edits =
      c.joined.documentEdits docs type)
    (hsome : (reattachComments c.joined c.className comments).edits ≠ []) {r : Row} {n : Node}
    (hr : (r, n) ∈ m.located) (hdeclares : n.tree.declares Kind.isNamespace c.className = true)
    (hfirst : ∀ rn ∈ m.located, rn.2.start < n.start →
      rn.2.start ≠ home.start ∧ rn.2.tree.declares Kind.isNamespace c.className = false) :
    ∃ kept, c.Documented x v home D R kept N := by
  have hm := hw.readable
  have hspace : n.tree.unwrap.kind.isNamespace = true := (Bool.and_eq_true_iff.mp hdeclares).1
  have huntouched : ¬ (((n.start = x.holding.start ∨ n.start = x.exporting.start) ∨
      n.start = v.statement.start) ∨ n.start = home.start) := by
    intro htouched
    rw [(hw.kind_of_touched hr htouched).2] at hspace
    cases hspace
  rw [not_or, not_or, not_or] at huntouched
  obtain ⟨⟨⟨hholding, hexporting⟩, hhelper⟩, hhome⟩ := huntouched
  have hblock : ∀ kept, x.joinedBlock v home (c.joinedParts kept D R N) (r, n) =
      r.docs.map (·.tree) ++ [kept n] := by
    intro kept
    simp only [ExportedClass.joinedBlock, if_neg hhome, ExportedClass.ownBlock,
      if_neg hholding, if_neg hexporting, if_neg hhelper, List.append_nil]
    rfl
  have hlacks : ∀ t ∈ r.docs.map (·.tree), t.declares Kind.isNamespace c.className = false :=
    fun t ht => lacks_of_not_part isPart_of_namespace (m.docs_not_parts hr ht)
  obtain ⟨-, T', -, hdocuments, hrevised⟩ := hw.documented_at hlocal hjoined hdocs htype hedits
    hsome hr (Kind.ne_alias (Kind.isNamespace_cases hspace).2.2) hfirst (hblock Node.tree) hlacks
    hdeclares
  -- Of the statements only the namespace is another one now.
  refine ⟨fun k => if k.start = n.start then T' else k.tree, fun rn hrn => ?_,
    hjoined.namespaced.documented comments, hrevised _ ?_ fun rn _ hne => ?_⟩
  · by_cases hstart : rn.2.start = n.start
    · obtain rfl := m.located_eq_of_start hm hrn hr hstart
      rw [if_pos rfl]
      exact Or.inr ⟨hdeclares, _, hdocuments⟩
    · exact Or.inl (if_neg hstart)
  · rw [hblock, if_pos rfl]
  · simp only [ExportedClass.joinedBlock, ExportedClass.ownBlock, joinedParts, treeParts, if_neg hne]

/-- The fourth batch puts comments into the first namespace of the name. -/
theorem rows_documented (hw : c.WorksOn x v home) (hlocal : c.Local)
    (hjoined : c.Joined x v home D R N) : ∃ kept N', c.Documented x v home D R kept N' := by
  by_cases hnone : (reattachComments c.joined c.className comments).edits = []
  · exact ⟨_, N, hw.documented_none hjoined hnone⟩
  obtain ⟨docs, stmt, type, hdocs, htype, hedits⟩ :=
    (reattachComments_edits c.joined c.className comments).resolve_left hnone
  obtain ⟨⟨r, n⟩, hr, hcase, hfirst⟩ := hw.exists_first_namespace
  rcases hcase with hhome | ⟨-, hdeclares⟩
  · obtain rfl : n = home := m.node_eq_of_start hw.readable hr hw.home_mem hhome
    exact ⟨_, hw.documented_new hlocal hjoined hdocs htype hedits hnone hr hfirst⟩
  · obtain ⟨kept, hkept⟩ :=
      hw.documented_earlier hlocal hjoined hdocs htype hedits hnone hr hdeclares hfirst
    exact ⟨kept, N, hkept⟩

/-! ### Loose aliases and the export -/

/-- No tree in the place of a statement is a loose alias, unless that is one. -/
theorem lacks_alias (hw : c.WorksOn x v home) {kept : Node → Tree}
    (hdocumented : c.Documented x v home D R kept N) (hD : x.Declares D)
    (hR : v.declaration.declarators.length ≠ 1 → v.Remains R) {rn : Row × Node}
    (hrn : rn ∈ m.located) (hkind : rn.2.tree.unwrap.kind ≠ .typeAliasDeclaration) :
    ∀ t ∈ x.joinedBlock v home (c.joinedParts kept D R N) rn,
      (t.unwrap.kind == .typeAliasDeclaration) = false := by
  have hpart : ∀ t : Tree, (t.unwrap.kind == .typeAliasDeclaration) = true → t.isPart = true :=
    fun _ => Tree.isPart_of_alias
  have hlacks : ∀ t : Tree, t.unwrap.kind.isTypeDeclaration = false →
      (t.unwrap.kind == .typeAliasDeclaration) = false :=
    fun t ht => beq_eq_false_iff_ne.mpr (Kind.ne_alias ht)
  -- Comments of props only go into namespaces, so no alias comes of them.
  have hkept : (kept rn.2).unwrap.kind ≠ .typeAliasDeclaration := by
    rcases hdocumented.keeps rn hrn with h | ⟨hdeclares, type, hdocuments⟩
    · rw [h]
      exact hkind
    · rw [Tree.declares, Bool.and_eq_true] at hdeclares
      rw [hdocuments.declared]
      exact Kind.ne_alias (Kind.isNamespace_cases hdeclares.1).2.2
  have hown : ∀ t ∈ x.ownBlock v (c.joinedParts kept D R N) rn,
      (t.unwrap.kind == .typeAliasDeclaration) = false :=
    lacks_ownBlock hpart hrn (fun _ => hlacks D (Kind.isClass_cases hD.declared).2.2.1)
      (fun hmore => hlacks R (hw.remains_kind (hR hmore)).2.2) (beq_eq_false_iff_ne.mpr hkept)
  intro t ht
  rw [ExportedClass.joinedBlock, List.mem_append] at ht
  rcases ht with ht | ht
  · exact hown t ht
  split at ht
  · rcases List.mem_pair.mp ht with rfl | rfl
    · exact lacks_of_not_part hpart rfl
    · obtain ⟨blocks, type, -, -, -, hdeclares⟩ := hdocumented.namespaced
      exact hlacks _ (Kind.isNamespace_cases hdeclares.declared).2.2
  · cases ht

/-- The fifth batch takes the loose aliases away. -/
theorem nodes_thinned (hw : c.WorksOn x v home) (hlocal : c.Local) {kept : Node → Tree}
    (hdocumented : c.Documented x v home D R kept N) (hD : x.Declares D)
    (hR : v.declaration.declarators.length ≠ 1 → v.Remains R) :
    c.thinned.Readable ∧ c.thinned.tree.nodes =
      m.located.flatMap (x.block v home (c.joinedParts kept D R N)) := by
  obtain ⟨hₖ, F, hF, hflat, halone⟩ := hdocumented.blocks
  obtain ⟨hreadable, hrows⟩ := c.documented.treeRows_thinned hₖ c.toThinned hlocal.thinned
  refine ⟨hreadable, ?_⟩
  rw [c.thinned.nodes_treeRows, hrows, hF, List.filter_flatMap, flatRows_flatMap]
  refine List.flatMap_congr fun rn hrn => ?_
  rw [ExportedClass.block]
  split
  · next hkind =>
    rw [halone rn hrn (not_not.mpr hkind), Module.trees_located hrn, List.filter_cons_of_neg]
    · rfl
    · simpa using hkind
  · next hkind =>
    rw [List.filter_eq_self.mpr, hflat rn hrn]
    intro row hrow
    have hlast := hw.lacks_alias hdocumented hD hR hrn hkind row.2
      (by rw [← hflat rn hrn]; exact last_mem_flatRows hrow)
    exact decide_eq_true_eq.mpr (beq_eq_false_iff_ne.mp hlast)

end WorksOn

/-- What has become of the module after a pass: what stands for each statement, and
    the trees of the texts that the pass has put in. -/
structure Completed (c : Course comments settings m) (x : ExportedClass) (v : Variable)
    (home : Node) (kept : Node → Tree) (D R N E : Tree) : Prop where
  keeps : ∀ rn ∈ m.located, c.Keeps rn.2 (kept rn.2)
  declared : x.Declares D ∧ D.spell = x.declaredText
  remaining : v.declaration.declarators.length ≠ 1 → v.Remains R ∧ R.spell = v.remainingText m
  namespaced : DocumentedNamespace comments settings c.className c.extraction.result N
  exports : ExportsName c.className E ∧ E.spell = exportText c.className
  readable : c.exported.Readable
  nodes : c.exported.tree.nodes =
    m.located.flatMap (x.block v home (c.joinedParts kept D R N)) ++ [E]

/-- The trees of the module after a pass. -/
theorem WorksOn.nodes_exported (hw : c.WorksOn x v home) (hcomplete : CompleteComments comments)
    (hlocal : ReadsLocally comments settings m) :
    ∃ kept D R N E, c.Completed x v home kept D R N E := by
  have hothers := hlocal.others c
  obtain ⟨D, hD, hDspell, hnormalized⟩ := hw.rows_normalized hcomplete hlocal.first
  obtain ⟨R, hR, hextracted⟩ := hw.rows_extracted hothers hD hnormalized
  have hremains : v.declaration.declarators.length ≠ 1 → v.Remains R := fun hmore => (hR hmore).2
  obtain ⟨N, hN, hjoined⟩ := hw.rows_joined hothers hD hremains hextracted
  obtain ⟨kept, N', hdocumented⟩ := hw.rows_documented hothers ⟨hD, hremains, hN, hjoined⟩
  obtain ⟨hthinned, hnodes⟩ := hw.nodes_thinned hothers hdocumented hD hremains
  obtain ⟨hreadable, E, hexported, hEspell, hE⟩ :=
    c.thinned.nodes_export hthinned c.toExported hothers.exported
  refine ⟨kept, D, R, N', E, hdocumented.keeps, ⟨hD, hDspell⟩, fun hmore => (hR hmore).symm,
    hdocumented.namespaced, ⟨hE, hEspell⟩, hreadable, ?_⟩
  rw [hexported, hnodes]

/-! ### What stands in the module -/

/-- Holds of a tree that a pass neither makes nor changes, or that is left of the
    helper's statement. -/
def IsLeft (x : ExportedClass) (v : Variable) (kept : Node → Tree) (R t : Tree) (m : Module) :
    Prop :=
  t.isPart = false ∨ (t = R ∧ v.declaration.declarators.length ≠ 1) ∨
    ∃ rn ∈ m.located, t = kept rn.2 ∧ rn.2.start ≠ x.holding.start ∧
      rn.2.start ≠ x.exporting.start ∧ rn.2.start ≠ v.statement.start ∧
      rn.2.tree.unwrap.kind ≠ .typeAliasDeclaration

/-- Where the trees of a block come from. -/
theorem mem_block {kept : Node → Tree} {D R N : Tree} {rn : Row × Node} (hrn : rn ∈ m.located)
    {t : Tree} (ht : t ∈ x.block v home (c.joinedParts kept D R N) rn) :
    (t = D ∧ rn.2.start = x.holding.start) ∨ (t = N ∧ rn.2.start = home.start) ∨
      IsLeft x v kept R t m := by
  rw [ExportedClass.block] at ht
  by_cases hkind : rn.2.tree.unwrap.kind = .typeAliasDeclaration
  · rw [if_pos hkind] at ht
    cases ht
  rw [if_neg hkind, ExportedClass.joinedBlock, List.mem_append] at ht
  rcases ht with ht | ht
  · rcases mem_ownBlock hrn ht with hpart | hclass | hremaining | ⟨hkept, hothers⟩
    · exact Or.inr (Or.inr (Or.inl hpart))
    · exact Or.inl hclass
    · exact Or.inr (Or.inr (Or.inr (Or.inl hremaining)))
    · exact Or.inr (Or.inr (Or.inr (Or.inr ⟨rn, hrn, hkept, hothers.1, hothers.2.1, hothers.2.2,
        hkind⟩)))
  · by_cases hhome : rn.2.start = home.start
    · rw [if_pos hhome] at ht
      rcases List.mem_pair.mp ht with rfl | rfl
      · exact Or.inr (Or.inr (Or.inl rfl))
      · exact Or.inr (Or.inl ⟨rfl, hhome⟩)
    · rw [if_neg hhome] at ht
      cases ht

/-- The namespace stands in the module. -/
theorem Completed.mem_namespace {kept : Node → Tree} {D R N E : Tree} (hw : c.WorksOn x v home)
    (h : c.Completed x v home kept D R N E) : N ∈ c.exported.tree.nodes := by
  obtain ⟨r, hr⟩ := m.exists_row_of_statement hw.home_mem
  rw [h.nodes]
  refine List.mem_append_left _ (List.mem_flatMap.mpr ⟨_, hr, ?_⟩)
  rw [ExportedClass.block, if_neg (hw.not_alias_of_touched hr (Or.inr rfl)),
    ExportedClass.joinedBlock, if_pos rfl]
  exact List.mem_append_right _ (.tail _ (.head _))

/-- Each course works on some class and some helper variable. -/
theorem exists_worksOn (c : Course comments settings m) (hcomplete : CompleteComments comments)
    (hlocal : ReadsNormalized comments settings m) : ∃ x v home, c.WorksOn x v home := by
  have hends := normalizeExport_ends m comments settings
  rw [c.normalizes] at hends
  cases hends with
  | @plans x hx _ _ hname hedits =>
  have hm := m.readable_of_statement hx.exporting_mem (Or.inr (List.find?_some hx.exporting))
  obtain ⟨hnone, -⟩ := extraction_diagnosed hm hx hcomplete hedits c.toNormalized
    (hlocal x _ _ hx c.normalizes c.toNormalized) settings.helperVariable
  obtain ⟨v, hv⟩ : ∃ v, m.variableNamed? settings.helperVariable = some v := by
    have hextract := extractTypes_ends c.normalized settings
    rw [c.extracts] at hextract
    cases hextract with
    | plans hv₁ _ _ _ =>
    refine Option.ne_none_iff_exists'.mp fun h => ?_
    rw [hnone.mpr h] at hv₁
    cases hv₁
  obtain ⟨home, hhome⟩ : ∃ home, m.statements.find? x.isHome = some home := by
    refine Option.isSome_iff_exists.mp (List.find?_isSome.mpr ⟨_, hx.holding_mem, ?_⟩)
    rw [ExportedClass.isHome, beq_self_eq_true, Bool.true_or]
  exact ⟨x, v, home, hx, hname, hedits, hv, hhome⟩

/-- The captured types are those of the helper's members in the module before the
    pass. -/
theorem WorksOn.captured (hw : c.WorksOn x v home) (hcomplete : CompleteComments comments)
    (hfirst : ReadsNormalized comments settings m) (kind : AliasKind) :
    ((m.variableMembers v).get? kind.member).map (·.memberTypeText) =
      some (c.extraction.result.get kind) := by
  have hextract := extractTypes_ends c.normalized settings
  rw [c.extracts] at hextract
  cases hextract with
  | @plans v₁ hv₁ hall plan htypes hedits =>
  obtain ⟨-, hmembers⟩ := extraction_diagnosed hw.readable hw.exported hcomplete hw.edits
    c.toNormalized (hfirst x _ _ hw.exported c.normalizes c.toNormalized) settings.helperVariable
  rw [← htypes kind]
  exact (Members.typeText_congr (hmembers v₁ v hv₁ hw.helper) kind.member).symm

/-- Where no other class has the name, the namespace comes after the exported
    one. -/
theorem WorksOn.home_eq (hw : c.WorksOn x v home)
    (hclass : (m.statements.filter (·.tree.holdsClass c.className)).length = 1) :
    home = x.holding := by
  have hholding : x.holding.tree.holdsClass c.className = true := by
    rw [hw.name]
    exact hw.exported.holdsClass
  refine eq_of_length_filter hclass hw.home_mem hw.holding_mem ?_ hholding
  have hhome := List.find?_some hw.home
  rw [ExportedClass.isHome, Bool.or_eq_true, beq_iff_eq] at hhome
  rcases hhome with h | h
  · obtain ⟨r, hr⟩ := m.exists_row_of_statement hw.home_mem
    obtain rfl : home = x.holding := m.node_eq_of_start hw.readable hr hw.holding_mem h
    exact hholding
  · rw [Tree.holdsClass, hw.name, h, Bool.true_or]

end Course

end ComponentDecl
