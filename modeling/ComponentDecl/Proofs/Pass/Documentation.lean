import ComponentDecl.Proofs.Pass.Completed

/-! # Where the comments of props go

    The fourth stage looks for the namespace by its name once the third one has put it
    after the class.  It finds the first namespace of that name.  That is the new one
    if no other one stands before the class, whatever stands after it; so the comments
    go into the alias that the third stage has made, and nothing else changes.

    Key theorem:
    - `process_documents`: where the namespace is found, and what changes there
-/

namespace ComponentDecl

open Syntax Text

variable {m m' : Module} {comments : Option Comments} {settings : Settings}

/-- The statement that the namespace of the exported class comes after: the one that
    holds the class, or an earlier one with a class of its name. -/
def Module.namespaceHome? (m : Module) : Option Node :=
  m.exportedClass?.bind fun x => m.statements.find? x.isHome

/-! ### The type of the props -/

/-- The signatures directly in the object type of an alias whose names have a
    comment. -/
def Syntax.Node.documentedSignatures (propsAlias : Node) (comments : Option Comments) : List Node :=
  match (propsAlias.child? .value).filter (·.kind == .objectType) with
  | none => []
  | some type => (type.partsOf .propertySignature).filter fun signature =>
      (comments.bind (·.prop? signature.memberName)).isSome

theorem length_filterMap {α β : Type} (f : α → Option β) (l : List α) :
    (l.filterMap f).length = (l.filter fun a => (f a).isSome).length := by
  induction l with
  | nil => rfl
  | cons a l ih => cases h : f a <;> simp [h, ih]

/-- A comment without an entry for a prop leaves it alone. -/
theorem documentedSignatures_of_empty {propsAlias : Node}
    (h : comments.filter (!·.props.isEmpty) = none) : propsAlias.documentedSignatures comments = [] := by
  have hnone : ∀ name, comments.bind (·.prop? name) = none := by
    intro name
    cases comments with
    | none => rfl
    | some docs =>
      have hempty : docs.props = [] := by simpa using h
      simp [Comments.prop?, hempty]
  unfold Node.documentedSignatures
  split
  · rfl
  · simp [hnone]

/-- The fourth stage documents the signatures of the alias that it finds. -/
theorem reattachComments_count {ns : String} {stmt propsAlias : Node}
    (hstmt : m.statements.find? (·.tree.declares Kind.isNamespace ns) = some stmt)
    (halias : stmt.unwrap.typeAlias? AliasKind.props.name = some propsAlias) :
    (reattachComments m ns comments).result = (propsAlias.documentedSignatures comments).length := by
  unfold reattachComments
  cases hcomments : comments.filter (!·.props.isEmpty) with
  | none => rw [documentedSignatures_of_empty hcomments]; rfl
  | some docs =>
    obtain rfl := (Option.filter_eq_some_iff.mp hcomments).1
    have hnamed : m.namespaceNamed? ns = some stmt.unwrap := by
      rw [Module.namespaceNamed?, m.declarationOfKind?_eq, hstmt]
      rfl
    rw [hnamed, Option.bind_some, halias]
    unfold Node.documentedSignatures
    dsimp only
    rw [Option.bind_some]
    cases (propsAlias.child? .value).filter (·.kind == .objectType) with
    | none => rfl
    | some type =>
      dsimp only
      rw [length_filterMap]
      simp [documentSignature]

/-- Edits below a node leave the bytes before it and after it. -/
theorem Module.source_of_below (hm : m.Readable) {n d : Node} (hn : m.root.Below n)
    (hd : n.Below d) {edits : List Edit} {out : List Char}
    (hwoven : Weave d.start edits d.tree.spell out) (hrising : Rising edits)
    (happly : m.applyEdits edits = .ok m') :
    ∃ new, m'.source = m.source.take n.start ++ new ++ m.source.drop n.stop := by
  obtain ⟨before, after, hholds⟩ := hn.holds
  obtain ⟨front, back, hinner⟩ := hd.holds
  have hall : Weave 0 edits m.chars _ := (hwoven.hold hinner).hold hholds
  have hsource : m.source = encodeChars m.chars := hm
  have hchars : m.chars = before ++ (n.tree.spell ++ after) := hholds.1
  have hstart : n.start = size before := by
    rw [hholds.2]
    exact Nat.zero_add _
  have hstop : n.stop = size (before ++ n.tree.spell) := by
    rw [hholds.stop_eq]
    exact Nat.zero_add _
  -- The edits lie within the inner node, so all around the outer one stays.
  have happlied : m'.source = encodeChars (before ++ (front ++ (out ++ back) ++ after)) := by
    rw [Module.applyEdits, hsource, hall.applyAll hrising (.refl edits)] at happly
    obtain rfl := Except.ok.inj happly
    rfl
  have htake : m.source.take n.start = encodeChars before := by
    rw [hsource, hchars, hstart, encodeChars_append, size, List.take_left]
  have hdrop : m.source.drop n.stop = encodeChars after := by
    rw [hsource, hchars, hstop, ← List.append_assoc, encodeChars_append, size, List.drop_left]
  exact ⟨encodeChars (front ++ (out ++ back)), by
    rw [happlied, htake, hdrop, encodeChars_append, encodeChars_append, List.append_assoc]⟩

/-- The fourth stage changes nothing outside the alias that it finds. -/
theorem reattachComments_frame (hm : m.Readable) {ns : String} {stmt propsAlias : Node}
    (hstmt : m.statements.find? (·.tree.declares Kind.isNamespace ns) = some stmt)
    (halias : stmt.unwrap.typeAlias? AliasKind.props.name = some propsAlias)
    (happly : m.applyEdits (reattachComments m ns comments).edits = .ok m') :
    ∃ new, m'.source =
      m.source.take propsAlias.start ++ new ++ m.source.drop propsAlias.stop := by
  have hbelow : m.root.Below propsAlias :=
    (Node.Below.refl.child (Node.mem_children_of_mem_parts (List.mem_of_find?_eq_some hstmt))).trans
      ((Node.below_unwrap stmt).trans (Node.below_typeAlias? halias))
  rcases reattachComments_edits m ns comments with hnone | ⟨docs, stmt', type, -, htype, hedits⟩
  · rw [hnone] at happly
    exact Module.source_of_below hm hbelow .refl (.done _ _) List.Pairwise.nil happly
  · obtain rfl := Option.some.inj (hstmt.symm.trans htype.statement)
    have hvalue := htype.ofAlias
    rw [halias, Option.bind_some] at hvalue
    obtain ⟨out, hout, -⟩ := m.weave_documented hm htype docs
    rw [hedits] at happly
    exact Module.source_of_below hm hbelow
      (Node.Below.refl.child (Node.mem_children_of_child? hvalue)) hout
      (m.rising_documented hm htype docs) happly

/-! ### The new namespace -/

/-- A namespace that declares the aliases has one of the props. -/
theorem DeclaresAliases.exists_typeAlias {className : String} {types : AliasKind → String}
    {stmt : Node} (h : DeclaresAliases className types stmt.tree) :
    ∃ propsAlias, stmt.unwrap.typeAlias? AliasKind.props.name = some propsAlias := by
  obtain ⟨a, b, c, hbody, ha, -⟩ := h.body
  obtain ⟨hkind, hname, -⟩ := Tree.declares_of_exportedAlias? ha
  rw [Tree.bodyParts, ← Node.unwrap_tree, ← Node.child?_tree] at hbody
  rw [Node.typeAlias?]
  cases hchild : stmt.unwrap.child? .body with
  | none =>
    rw [hchild] at hbody
    cases hbody
  | some body =>
    rw [hchild, Option.map_some] at hbody
    dsimp only at hbody ⊢
    rw [← Node.parts_tree] at hbody
    obtain ⟨first, rest, hparts, rfl, -⟩ := List.map_eq_cons_iff.mp hbody
    have hfirst : (decide (first.unwrap.kind = .typeAliasDeclaration) &&
        first.unwrap.name? == some AliasKind.props.name) = true := by
      rw [Node.kind, Node.name?_tree, Node.unwrap_tree, hkind, hname]
      rfl
    rw [hparts, List.findSome?_cons, if_pos hfirst]
    exact ⟨_, rfl⟩

namespace Course

variable {c : Course comments settings m} {x : ExportedClass} {v : Variable} {home : Node}

/-- The text that the third batch puts in. -/
def namespaceText (c : Course comments settings m) : List Char :=
  '\n' :: (Namespace.declaration c.className c.extraction.result
    (String.ofList (List.replicate settings.indentWidth ' '))).toList

/-- Holds of the namespace that the third batch puts between two parts of the module,
    and of its alias of the props: the namespace is the end of the text that was put
    in. -/
structure Generates (c : Course comments settings m) (before after : List Char)
    (ns propsAlias : Node) : Prop where
  extracted : c.extracted.chars = before ++ after
  joined : c.joined.chars = before ++ (c.namespaceText ++ after)
  statement : ns ∈ c.joined.statements
  start : size before < ns.start
  stop : ns.stop = size (before ++ c.namespaceText)
  declares : ns.tree.declares Kind.isNamespace c.className = true
  ofAlias : ns.unwrap.typeAlias? AliasKind.props.name = some propsAlias

/-- A statement and the namespace after it, on lines of their own: the namespace ends
    the last row, and the trees before it are the doc comments, the statement and the doc
    comment of the namespace. -/
theorem rows_namespace (docs : List Piece) (T doc N : Tree) (gap : List Char) :
    ∃ front own, rows (docs ++ lined [T, doc, N] gap) = front ++ [⟨own, ⟨N, gap⟩⟩] ∧
      rowsText front ++ piecesText own =
        piecesText docs ++ (T.spell ++ ('\n' :: (doc.spell ++ ['\n']))) ∧
      ∀ r ∈ front, r.last.tree ∈ docs.map (·.tree) ∨ r.last.tree = T ∨ r.last.tree = doc := by
  obtain ⟨front, own, hrows⟩ := rows_concat (docs ++ [⟨T, ['\n']⟩, ⟨doc, ['\n']⟩])
  have hlined : docs ++ lined [T, doc, N] gap =
      docs ++ [⟨T, ['\n']⟩, ⟨doc, ['\n']⟩] ++ [⟨N, gap⟩] := by
    simp [lined]
  have hpieces : front.flatMap Row.pieces ++ own = docs ++ [⟨T, ['\n']⟩, ⟨doc, ['\n']⟩] := by
    have hall := rows_pieces (docs ++ [⟨T, ['\n']⟩, ⟨doc, ['\n']⟩] ++ [⟨N, gap⟩])
    rw [hrows, List.flatMap_append, List.flatMap_singleton, Row.pieces, ← List.append_assoc] at hall
    exact List.append_cancel_right hall
  refine ⟨front, own, by rw [hlined, hrows], ?_, fun r hr => ?_⟩
  · rw [rowsText, ← piecesText_append, hpieces]
    simp [piecesText_append]
  · have hmem : r.last ∈ docs ++ [⟨T, ['\n']⟩, ⟨doc, ['\n']⟩] := by
      rw [← hpieces]
      exact List.mem_append_left _ (List.mem_flatMap.mpr ⟨r, hr, by simp [Row.pieces]⟩)
    rw [List.mem_append, List.mem_pair] at hmem
    rcases hmem with h | h | h
    · exact Or.inl (List.mem_map_of_mem h)
    · exact Or.inr (Or.inl (by rw [h]))
    · exact Or.inr (Or.inr (by rw [h]))

/-- The third batch leaves the rows of the module, with the namespace after the row of
    the class; and no tree before that class declares a namespace, if none did before the
    pass. -/
theorem WorksOn.joined_rows (hw : c.WorksOn x v home) (hcomplete : CompleteComments comments)
    (hlocal : ReadsLocally comments settings m)
    (hafter : ∀ ns ∈ m.statements, ns.tree.declares Kind.isNamespace c.className = true →
      home.start < ns.start) :
    ∃ before r after N, c.extracted.Readable ∧ c.extracted.rows = before ++ r :: after ∧
      c.joined.lead = c.extracted.lead ∧
      c.joined.rows = before ++ rows (r.docs ++ lined [r.last.tree,
        .token none .comment (Namespace.docText c.className), N] r.last.gap) ++ after ∧
      NewNamespace settings c.className c.extraction.result N ∧
      (∀ d ∈ r.docs, d.tree.isPart = false) ∧
      r.last.tree.declares Kind.isNamespace c.className = false ∧
      ∀ q ∈ before, q.last.tree.declares Kind.isNamespace c.className = false := by
  have hm := hw.readable
  have hothers := hlocal.others c
  obtain ⟨D, hD, -, hnormalized⟩ := hw.rows_normalized hcomplete hlocal.first
  obtain ⟨R, hR, hextracted⟩ := hw.rows_extracted hothers hD hnormalized
  have hremains : v.declaration.declarators.length ≠ 1 → v.Remains R := fun hmore => (hR hmore).2
  obtain ⟨r₀, hr₀⟩ := m.exists_row_of_statement hw.home_mem
  obtain ⟨X, T, hown, hX, hT⟩ := hw.homeBlock (R := R) hr₀ hD
  rw [← hw.name] at hT
  have hblocks := hextracted []
  have hclass : ∀ t : Tree, t.declares Kind.isClass c.className = true → t.isPart = true :=
    fun _ => declaresParts_class.isPart_of_declares
  have hspace : ∀ t : Tree, t.declares Kind.isNamespace c.className = true → t.isPart = true :=
    fun _ => declaresParts_namespace.isPart_of_declares
  have hnoclass := hw.no_class_before (D := D) hremains
  have hXclass : ∀ t ∈ X, t.declares Kind.isClass c.className = false :=
    fun t ht => lacks_of_not_part hclass (hX t ht)
  -- The namespace is put after the first statement that declares the class.
  obtain ⟨stmt, hstmt⟩ := hblocks.exists_first hclass hr₀ (hown []) hT
  have happly : c.extracted.applyEdits (buildNamespace c.extracted c.className
      c.extraction.result settings).edits = .ok c.joined := c.toJoined
  rw [buildNamespace_edits hstmt] at happly
  obtain ⟨before, r, after, ts, hrows, hr, hclassr, hbefore, hts, hlead, hjoined⟩ :=
    c.extracted.rows_becomes hblocks.readable hclass hstmt
      (joinChange_fits c.className c.extraction.result settings stmt) (List.pairwise_singleton _ _)
      happly (hothers.joined stmt hstmt)
  obtain ⟨N, rfl, hspell, hN⟩ := reads_joinChange hts
  have hlast : r.last.tree = stmt.tree := Module.last_tree hr
  rw [← hlast] at hjoined
  refine ⟨before, r, after, N, hblocks.readable, hrows, hlead, hjoined, ⟨hspell, hN⟩,
    fun d hd => c.extracted.docs_not_parts hr (List.mem_map_of_mem hd), ?_, ?_⟩
  · rw [Tree.declares, Bool.and_eq_true] at hclassr
    exact Tree.declares_eq_false (Kind.isClass_cases hclassr.1).2.2.2.1 _
  · refine hblocks.lacks_before hm hr₀ hnoclass (hown []) hXclass hT hrows hbefore hclassr ?_
      fun t ht => lacks_of_not_part hspace (hX t ht)
    intro rn hrn hlt
    have hno : rn.2.tree.declares Kind.isNamespace c.className = false := by
      by_contra h
      rw [Bool.not_eq_false] at h
      have hmem := m.mem_statements_of_located hrn (hspace _ h)
      exact absurd hlt (Nat.not_lt.mpr (Nat.le_of_lt (hafter _ hmem h)))
    exact lacks_ownBlock hspace hrn
      (fun _ => Tree.declares_eq_false (Kind.isClass_cases hD.declared).2.2.2.1 _)
      (fun hmore => Tree.declares_eq_false (hw.remains_kind (hremains hmore)).2.1 _) hno

/-- If no other namespace of the class's name stands before the class, the first one
    after the third batch is the new one. -/
theorem WorksOn.generates (hw : c.WorksOn x v home) (hcomplete : CompleteComments comments)
    (hlocal : ReadsLocally comments settings m)
    (hafter : ∀ ns ∈ m.statements, ns.tree.declares Kind.isNamespace c.className = true →
      home.start < ns.start) :
    ∃ before after ns propsAlias, c.Generates before after ns propsAlias ∧
      c.joined.statements.find? (·.tree.declares Kind.isNamespace c.className) = some ns := by
  obtain ⟨front, r, back, N, hₑ, hrows, hlead, hjoined, hN, hdocs, hclass, hfront⟩ :=
    hw.joined_rows hcomplete hlocal hafter
  obtain ⟨own, docs, hown, htext, hmem⟩ := rows_namespace r.docs r.last.tree
    (.token none .comment (Namespace.docText c.className)) N r.last.gap
  have hNspace := hN.declares.declares_namespace
  have hspace : ∀ t : Tree, t.declares Kind.isNamespace c.className = true → t.isPart = true :=
    fun _ => declaresParts_namespace.isPart_of_declares
  have hlacks : ∀ q ∈ front ++ own, q.last.tree.declares Kind.isNamespace c.className = false := by
    intro q hq
    rcases List.mem_append.mp hq with hq | hq
    · exact hfront q hq
    · rcases hmem q hq with h | h | h
      · obtain ⟨d, hd, hdq⟩ := List.mem_map.mp h
        exact lacks_of_not_part hspace (hdq ▸ hdocs d hd)
      · rw [h]
        exact hclass
      · rw [h]
        exact lacks_of_not_part hspace rfl
  rw [hown] at hjoined
  have hsplit : c.joined.rows = (front ++ own) ++ ⟨docs, ⟨N, r.last.gap⟩⟩ :: back := by
    rw [hjoined]
    simp
  obtain ⟨ns, hns⟩ : ∃ ns, c.joined.statements.find?
      (·.tree.declares Kind.isNamespace c.className) = some ns := by
    have hrow : (docs.map (·.tree), N) ∈ c.joined.treeRows := by
      rw [Module.treeRows, hsplit]
      exact List.mem_map.mpr ⟨_, List.mem_append_right _ (.head _), rfl⟩
    exact c.joined.exists_first_of_row hspace hrow hNspace
  have hnode := c.joined.nodeAt_of_first hspace hns hsplit hlacks hNspace
  have htree : ns.tree = N := by rw [hnode]; rfl
  obtain ⟨propsAlias, halias⟩ := DeclaresAliases.exists_typeAlias (htree ▸ hN.declares)
  have hput : c.namespaceText = '\n' :: (Namespace.docText c.className ++ '\n' :: N.spell) := by
    rw [namespaceText, Namespace.declaration_toList, hN.spell]
  -- What stands before the namespace in the module.
  have hlead : c.joined.lead ++ (rowsText (front ++ own) ++ piecesText docs) =
      c.extracted.lead ++ (rowsText front ++ (piecesText r.docs ++ (r.last.tree.spell ++
        ('\n' :: (Namespace.docText c.className ++ ['\n']))))) := by
    rw [hlead, rowsText_append, List.append_assoc (rowsText front), htext, Tree.spell_token]
  have hstart : ns.start = size (c.joined.lead ++ (rowsText (front ++ own) ++ piecesText docs)) := by
    rw [hnode, Module.start_nodeAt]
  refine ⟨c.extracted.lead ++ (rowsText front ++ (piecesText r.docs ++ r.last.tree.spell)),
    r.last.gap ++ rowsText back, ns, propsAlias, ⟨?_, ?_, List.mem_of_find?_eq_some hns, ?_, ?_,
      htree ▸ hNspace, halias⟩, hns⟩
  · rw [c.extracted.chars_rows, hrows, rowsText_append, rowsText_cons]
    simp
  · have hchars : c.joined.chars = c.joined.lead ++ (rowsText (front ++ own) ++ piecesText docs) ++
        (N.spell ++ (r.last.gap ++ rowsText back)) := by
      rw [c.joined.chars_rows, hsplit, rowsText_append, rowsText_cons]
      simp
    rw [hchars, hlead, hput]
    simp
  · have hnewline : 0 < '\n'.utf8Size := Char.utf8Size_pos _
    rw [hstart, hlead]
    simp only [size_append, size_cons]
    omega
  · rw [Node.stop_eq, hstart, hlead, htree, hput]
    simp only [size_append, size_cons, size_nil]
    omega

end Course

/-- If no namespace of the class's name stands before the class, the fourth stage
    changes nothing outside the alias of the props in the namespace that the third one has
    put in, and reports how many of its signatures have a comment. -/
theorem process_documents (comments : Option Comments) (settings : Settings)
    {s s' : Session} {className : String} {documented : Nat}
    (hcomplete : CompleteComments comments) (hlocal : ReadsLocally comments settings s.module)
    (hafter : ∀ home, s.module.namespaceHome? = some home → ∀ ns ∈ s.module.statements,
      ns.tree.declares Kind.isNamespace className = true → home.start < ns.start)
    (hsuccess : process comments settings s = (.ok (.success className documented), s')) :
    ∃ (c : Course comments settings s.module) (before after : List Char) (ns propsAlias : Node),
      className = c.className ∧ s'.module = c.exported ∧
      c.Generates before after ns propsAlias ∧
      (∃ new, c.documented.source = c.joined.source.take propsAlias.start ++ new ++
        c.joined.source.drop propsAlias.stop) ∧
      documented = (propsAlias.documentedSignatures comments).length := by
  obtain ⟨c, rfl, rfl, hmodule⟩ := course_of_success hsuccess
  obtain ⟨x, v, home, hw⟩ := c.exists_worksOn hcomplete hlocal.first
  have hhome : s.module.namespaceHome? = some home := by
    rw [Module.namespaceHome?, hw.exported.exportedClass?, Option.bind_some, hw.home]
  obtain ⟨before, after, ns, propsAlias, hgenerates, hfirst⟩ :=
    hw.generates hcomplete hlocal (hafter home hhome)
  have hjoined : c.joined.Readable := (c.onTheWay _ (by simp)).readable hw.readable
  exact ⟨c, before, after, ns, propsAlias, rfl, hmodule, hgenerates,
    reattachComments_frame hjoined hfirst hgenerates.ofAlias c.toDocumented,
    reattachComments_count hfirst hgenerates.ofAlias⟩

/-- The comment for the prop of the small component goes into its new namespace. -/
theorem process_documents_small : ∃ documented s',
    process smallComments smallSettings ⟨smallModule, []⟩ =
      (.ok (.success "A" documented), s') ∧
    ∃ (c : Course smallComments smallSettings smallModule) (before after : List Char)
      (ns propsAlias : Node),
      "A" = c.className ∧ s'.module = c.exported ∧ c.Generates before after ns propsAlias ∧
      (∃ new, c.documented.source = c.joined.source.take propsAlias.start ++ new ++
        c.joined.source.drop propsAlias.stop) ∧
      documented = (propsAlias.documentedSignatures smallComments).length := by
  obtain ⟨documented, s', hsuccess⟩ := process_small
  obtain ⟨-, -, hnamespace⟩ := counts_small
  refine ⟨documented, s', hsuccess, process_documents smallComments smallSettings
    completeComments_small readsLocally_small (fun home _ ns hns hdeclares => ?_) hsuccess⟩
  have hnone : smallModule.namespaceNamed? "A" = none := Option.isNone_iff_eq_none.mp hnamespace
  exact absurd hdeclares (Bool.eq_false_iff.mp (Module.declares_namespace_eq_false hnone ns hns))

end ComponentDecl
