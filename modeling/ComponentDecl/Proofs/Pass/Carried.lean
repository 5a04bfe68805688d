import ComponentDecl.Proofs.Pass.Extraction

/-! # No edit is refused

    Whatever module a stage looks at, the batch that it hands over can be carried
    out: its ranges lie in the module and do not meet.  A pass therefore ends
    with a success or a failure, never with a refused edit.

    Key theorem:
    - `Batch.carriedOut`: every batch of every stage on every module
-/

namespace ComponentDecl

open Syntax Text

variable {m : Module} {comments : Option Comments} {settings : Settings}

/-! ### Modules that encode no text -/

theorem Module.statements_of_fault (h : m.tree = .node none .program [.token none .error []]) :
    ∀ stmt ∈ m.statements, stmt.tree = .token none .error [] := by
  intro stmt hstmt
  have hmem : stmt.tree ∈ m.tree.parts := by
    rw [← m.statements_tree]
    exact List.mem_map_of_mem hstmt
  have hchild : stmt.tree ∈ m.tree.children :=
    (List.mem_filter.mp (List.mem_filter.mp hmem).1).1
  rw [h] at hchild
  exact List.mem_singleton.mp hchild

/-- The statement of a module that encodes no text declares and exports nothing. -/
theorem Module.unwrap_of_fault (h : m.tree = .node none .program [.token none .error []])
    {stmt : Node} (hstmt : stmt ∈ m.statements) :
    stmt.unwrap.kind = .error ∧ stmt.isDefaultExport = false := by
  have htree := m.statements_of_fault h stmt hstmt
  constructor
  · show stmt.unwrap.tree.kind = .error
    rw [Node.unwrap_tree, htree]
    rfl
  · rw [Node.isDefaultExport_tree, htree]
    rfl

/-- A module with a declaration is readable. -/
theorem Module.readable_of_statement {stmt : Node} (hstmt : stmt ∈ m.statements)
    (h : stmt.unwrap.kind ≠ .error ∨ stmt.isDefaultExport = true) : m.Readable := by
  rcases m.readable_or with hm | hfault
  · exact hm
  · obtain ⟨hkind, hexport⟩ := m.unwrap_of_fault hfault hstmt
    rcases h with h | h
    · exact absurd hkind h
    · rw [hexport] at h
      cases h

/-! ### Single places -/

/-- Ordered edits on a node below a statement can be carried out. -/
theorem Module.below_carriedOut (hm : m.Readable) {stmt d : Node} (hstmt : stmt ∈ m.statements)
    (hd : stmt.Below d) {edits : List Edit} {out : List Char}
    (hwoven : Weave d.start edits d.tree.spell out) (hrising : Rising edits) :
    m.Carries edits := by
  have hroot : m.root.Below d :=
    (Node.Below.refl.child (Node.mem_children_of_mem_parts hstmt)).trans hd
  obtain ⟨before, after, hholds⟩ := hroot.holds
  have hall : Weave 0 edits m.chars _ := hwoven.hold hholds
  have hsource : m.source = encodeChars m.chars := hm
  refine ⟨m.withSource (encodeChars (before ++ (out ++ after))), ?_,
    fun _ => readable_of_source rfl⟩
  rw [Module.applyEdits, hsource, hall.applyAll hrising (.refl edits)]
  rfl

/-- No edits leave a module as it is. -/
theorem Module.applyEdits_nil (m : Module) : m.applyEdits [] = .ok m := by
  have hsame : m.applyEdits [] = .ok (m.withSource m.source) := by
    rw [Module.applyEdits, Edit.applyAll, Edit.arrange, List.foldr_nil, Edit.applyInOrder]
    rfl
  rw [hsame, m.withSource_self]

/-- No edits can be carried out on any module. -/
theorem Module.nil_carriedOut (m : Module) : m.Carries [] :=
  ⟨m, m.applyEdits_nil, fun hm => hm⟩

/-- A text can be put at the end of any module, readable or not. -/
theorem Module.applyEdits_append (m : Module) (text : String) :
    m.applyEdits [m.append text] = .ok (m.withSource ((m.append text).splice m.source)) := by
  rw [Module.applyEdits, Edit.applyAll, Edit.arrange, List.foldr_cons, List.foldr_nil, Edit.place,
    Edit.applyInOrder, Edit.applyInOrder, if_pos]
  · rfl
  · exact ⟨Int.natCast_nonneg _, Int.le_refl _, Int.le_refl _⟩

/-- What stands in a module once a text is put at its end. -/
theorem Module.splice_append (hm : m.Readable) (text : String) :
    (m.append text).splice m.source = encodeChars (m.chars ++ (m.append text).text.toList) := by
  have hsource : m.source = encodeChars m.chars := hm
  rw [Edit.splice]
  show m.source.take m.source.length ++ _ ++ m.source.drop m.source.length = _
  rw [List.take_length, List.drop_length, List.append_nil, encode, encodeChars_append, ← hsource]

theorem Module.append_carriedOut (m : Module) (text : String) : m.Carries [m.append text] :=
  ⟨_, m.applyEdits_append text, fun hm => readable_of_source (m.splice_append hm text)⟩

/-- A text can be put after a statement. -/
theorem Module.insertAfter_carriedOut (hm : m.Readable) {stmt : Node}
    (hstmt : stmt ∈ m.statements) (text : String) :
    m.Carries [Edit.insertAfter stmt text] := by
  have hwoven := weave_single stmt.start stmt.tree.spell [] [] ("\n" ++ text)
  rw [← Node.stop_eq, size_nil, Nat.add_zero, List.append_nil, List.append_nil] at hwoven
  exact m.below_carriedOut hm hstmt .refl hwoven (List.pairwise_singleton _ _)

/-! ### The helper variable -/

/-- A variable can be removed. -/
theorem Variable.carriedOut (hm : m.Readable) {name : String} {v : Variable}
    (h : m.variableNamed? name = some v) : m.Carries [m.removeVariable v] := by
  have hedits := Variable.editsOf_changes hm h
  obtain ⟨m', hm', hreadable, -⟩ := m.applyEdits_changes hm (Variable.changes_fit hm h)
    (by rw [hedits]; exact List.pairwise_singleton _ _) (.of_eq hedits.symm)
  exact ⟨m', hm', fun _ => hreadable⟩

/-! ### Comments of props -/

/-- The signatures of a type that get a comment, each with its comment. -/
def documentedProps (comments : Comments) (type : Node) : List (Node × String) :=
  (type.partsOf .propertySignature).filterMap fun signature =>
    (comments.prop? signature.memberName).map fun doc => (signature, doc)

/-- A signature with the space before it and a comment above both. -/
def Module.documentedText (m : Module) (signature : Node) (doc : String) : String :=
  "\n" ++ doc ++ "\n" ++ match m.fullText signature with
    | .ok t => t
    | .error _ => signature.text

/-- The edits that put comments above signatures of a type. -/
def Module.documentEdits (m : Module) (comments : Comments) (type : Node) : List Edit :=
  fullReplacements type.start
    ((documentedProps comments type).map fun c => (c.1, m.documentedText c.1 c.2))

theorem documentedProps_sublist (comments : Comments) (type : Node) :
    ((documentedProps comments type).map (·.1)).Sublist (type.partsOf .propertySignature) := by
  unfold documentedProps
  induction type.partsOf .propertySignature with
  | nil => exact List.nil_sublist _
  | cons signature signatures ih =>
    cases hdoc : comments.prop? signature.memberName with
    | none =>
      rw [List.filterMap_cons_none (by rw [hdoc]; rfl)]
      exact ih.cons _
    | some doc =>
      rw [List.filterMap_cons_some (by rw [hdoc]; rfl), List.map_cons]
      exact ih.cons_cons _

theorem Syntax.Node.mem_children_of_documented {comments : Comments} {type : Node}
    {c : Node × String} (h : c ∈ documentedProps comments type) : c.1 ∈ type.children :=
  mem_children_of_mem_partsOf
    ((documentedProps_sublist comments type).subset (List.mem_map_of_mem h))

/-- The edits that put comments above signatures replace the signatures with the
    space before them. -/
theorem documentSignature_edits (comments : Comments) {type : Node} (habove : type.above ≠ []) :
    (type.partsOf .propertySignature).filterMap (documentSignature m comments) =
      m.documentEdits comments type := by
  rw [Module.documentEdits, fullReplacements, documentedProps, List.map_filterMap,
    List.map_filterMap]
  refine List.filterMap_congr fun signature hsignature => ?_
  rw [documentSignature, Option.map_map, Option.map_map,
    fullStart_eq (Node.mem_children_of_mem_partsOf hsignature) habove]
  rfl

/-- Holds of the type of the first alias in the first namespace of a name, if it
    is an object type; `stmt` is the statement of the namespace. -/
structure Module.PropsType (m : Module) (ns : String) (stmt type : Node) : Prop where
  statement : m.statements.find? (·.tree.declares Kind.isNamespace ns) = some stmt
  ofAlias : (stmt.unwrap.typeAlias? AliasKind.props.name).bind (·.child? .value) = some type
  kind : type.kind = .objectType

theorem Module.PropsType.mem_statements {ns : String} {stmt type : Node}
    (h : m.PropsType ns stmt type) : stmt ∈ m.statements :=
  List.mem_of_find?_eq_some h.statement

theorem Module.PropsType.below {ns : String} {stmt type : Node} (h : m.PropsType ns stmt type) :
    stmt.Below type := by
  obtain ⟨a, halias, hvalue⟩ := Option.bind_eq_some_iff.mp h.ofAlias
  exact ((Node.below_unwrap stmt).trans (Node.below_typeAlias? halias)).child
    (Node.mem_children_of_child? hvalue)

theorem Module.PropsType.above_ne {ns : String} {stmt type : Node}
    (h : m.PropsType ns stmt type) : type.above ≠ [] := by
  refine h.below.above_ne ?_
  rw [m.above_of_statement h.mem_statements]
  exact List.cons_ne_nil _ _

/-- A module with such a type is readable. -/
theorem Module.PropsType.readable {ns : String} {stmt type : Node}
    (h : m.PropsType ns stmt type) : m.Readable := by
  have hkind := List.find?_some h.statement
  rw [Tree.declares, Bool.and_eq_true, ← Node.unwrap_tree] at hkind
  refine m.readable_of_statement h.mem_statements (Or.inl fun herror => ?_)
  rw [show stmt.unwrap.tree.kind = .error from herror] at hkind
  cases hkind.1

/-- What the fourth stage plans: comments above the signatures of the first alias's type, or
    nothing if there are no comments or no such type. -/
theorem reattachComments_plans (m : Module) (ns : String) (comments : Option Comments) :
    ((comments.filter (!·.props.isEmpty) = none ∨ ∀ stmt type, ¬ m.PropsType ns stmt type) ∧
        (reattachComments m ns comments).edits = []) ∨
      ∃ docs stmt type, comments.filter (!·.props.isEmpty) = some docs ∧
        m.PropsType ns stmt type ∧
        (reattachComments m ns comments).edits = m.documentEdits docs type := by
  unfold reattachComments
  cases hcomments : comments.filter (!·.props.isEmpty) with
  | none => exact Or.inl ⟨Or.inl rfl, rfl⟩
  | some docs =>
  dsimp only
  have hnamed : m.namespaceNamed? ns =
      (m.statements.find? (·.tree.declares Kind.isNamespace ns)).map Node.unwrap := by
    rw [Module.namespaceNamed?, m.declarationOfKind?_eq]
  split
  · next hnone =>
    refine Or.inl ⟨Or.inr fun stmt type h => ?_, rfl⟩
    rw [hnamed, h.statement, Option.map_some, Option.bind_some, h.ofAlias, Option.filter_some,
      h.kind] at hnone
    cases hnone
  · next type htype =>
    obtain ⟨hvalue, hkind⟩ := Option.filter_eq_some_iff.mp htype
    rw [hnamed] at hvalue
    cases hfind : m.statements.find? (·.tree.declares Kind.isNamespace ns) with
    | none =>
      rw [hfind] at hvalue
      cases hvalue
    | some stmt =>
      rw [hfind] at hvalue
      have hprops : m.PropsType ns stmt type := ⟨hfind, hvalue, beq_iff_eq.mp hkind⟩
      exact Or.inr ⟨docs, stmt, type, rfl, hprops,
        documentSignature_edits docs hprops.above_ne⟩

/-- What the fourth stage does: nothing, or comments above the signatures of the first
    alias's type. -/
theorem reattachComments_edits (m : Module) (ns : String) (comments : Option Comments) :
    (reattachComments m ns comments).edits = [] ∨
      ∃ docs stmt type, comments = some docs ∧ m.PropsType ns stmt type ∧
        (reattachComments m ns comments).edits = m.documentEdits docs type := by
  rcases reattachComments_plans m ns comments with ⟨-, hedits⟩ | ⟨docs, stmt, type, hdocs, h⟩
  · exact Or.inl hedits
  · exact Or.inr ⟨docs, stmt, type, (Option.filter_eq_some_iff.mp hdocs).1, h⟩

/-- As many props are documented as there are edits. -/
theorem reattachComments_result (m : Module) (ns : String) (comments : Option Comments) :
    (reattachComments m ns comments).result = (reattachComments m ns comments).edits.length := by
  unfold reattachComments
  cases comments.filter (!·.props.isEmpty) with
  | none => rfl
  | some docs =>
    dsimp only
    split <;> rfl

/-- Replacing signatures with the space before each, in their order, is a batch on their
    type. -/
theorem weave_signatures {type : Node} (h : Full type.tree) {l : List (Node × String)}
    (hl : (l.map (·.1)).Sublist (type.partsOf .propertySignature)) :
    ∃ out, Weave type.start (fullReplacements type.start l) type.tree.spell out ∧
      ∀ e ∈ fullReplacements type.start l, e.start < e.stop := by
  refine weave_full ((hl.trans List.filter_sublist).trans List.filter_sublist) fun c hc => ?_
  have hmem := hl.subset (List.mem_map_of_mem hc)
  have hkind : c.1.tree.kind = .propertySignature := beq_iff_eq.mp (List.mem_filter.mp hmem).2
  have hchild : c.1.tree ∈ type.tree.nodes := by
    rw [← Node.children_tree]
    exact List.mem_map_of_mem (Node.mem_children_of_mem_partsOf hmem)
  refine ⟨?_, (h.children _ (List.mem_filter.mp hchild).1).spell_ne_nil⟩
  rw [hkind]
  decide

/-- Comments above signatures of a type are a batch on that type. -/
theorem Module.weave_documented (hm : m.Readable) {ns : String} {stmt type : Node}
    (h : m.PropsType ns stmt type) (docs : Comments) :
    ∃ out, Weave type.start (m.documentEdits docs type) type.tree.spell out ∧
      ∀ e ∈ m.documentEdits docs type, e.start < e.stop := by
  refine weave_signatures (h.below.full (m.full_statement hm h.mem_statements)) ?_
  rw [List.map_map]
  exact documentedProps_sublist docs type

theorem Module.rising_documented (hm : m.Readable) {ns : String} {stmt type : Node}
    (h : m.PropsType ns stmt type) (docs : Comments) : Rising (m.documentEdits docs type) := by
  obtain ⟨out, hout, hcovers⟩ := m.weave_documented hm h docs
  exact hout.rising fun e he => hcovers e (List.mem_of_mem_tail he)

/-! ### Loose aliases -/

/-- Every statement that declares a type alias goes away. -/
def aliasesGo (n : Node) : Option Change :=
  if n.tree.unwrap.kind = .typeAliasDeclaration then some .goes else none

theorem Module.editsOf_aliasesGo (m : Module) :
    m.editsOf aliasesGo = m.typeAliases.map m.removeStatement := by
  have hpart : ∀ n : Node, n.tree.unwrap.kind = .typeAliasDeclaration →
      n.tree.isPart = true := fun n h => Tree.isPart_of_unwrap (by rw [Tree.isPart, h]; rfl)
  rw [Module.typeAliases, Module.statements_eq, List.filter_filter, Module.editsOf]
  induction m.located with
  | nil => rfl
  | cons rn l ih =>
    rw [List.flatMap_cons, List.map_cons, ih]
    by_cases h : rn.2.tree.unwrap.kind = .typeAliasDeclaration
    · have hkind : (rn.2.unwrap.kind == .typeAliasDeclaration) = true := by
        rw [beq_iff_eq, Node.kind, Node.unwrap_tree, h]
      rw [List.filter_cons_of_pos (by rw [hkind, hpart _ h]; rfl), aliasesGo, if_pos h]
      rfl
    · have hkind : (rn.2.unwrap.kind == .typeAliasDeclaration) = false := by
        rw [beq_eq_false_iff_ne, Node.kind, Node.unwrap_tree]
        exact h
      rw [List.filter_cons_of_neg (by rw [hkind]; exact Bool.false_ne_true), aliasesGo, if_neg h]
      rfl

theorem aliasesGo_fits {n : Node} {change : Change} (h : aliasesGo n = some change) :
    change.FitsAt n := by
  unfold aliasesGo at h
  split at h
  · cases h
    trivial
  · cases h

theorem rising_aliasesGo (hm : m.Readable) : Rising (m.editsOf aliasesGo) := by
  refine @Module.rising_editsOf m hm _ (fun _ => []) (fun rn _ change h => ?_)
    fun rn _ edits es h => ?_
  · unfold aliasesGo at h
    split at h
    · cases h
      trivial
    · cases h
  · unfold aliasesGo at h
    split at h <;> cases h

/-- The loose aliases can be removed. -/
theorem dropAliases_carriedOut (m : Module) : m.Carries (dropAliases m).edits := by
  rcases m.readable_or with hm | hfault
  · obtain ⟨m', hm', hreadable, -⟩ := m.applyEdits_changes hm (fun _ _ _ => aliasesGo_fits)
      (rising_aliasesGo hm) (.of_eq m.editsOf_aliasesGo.symm)
    exact ⟨m', hm', fun _ => hreadable⟩
  · have hnone : m.typeAliases = [] := by
      refine List.filter_eq_nil_iff.mpr fun stmt hstmt => ?_
      rw [(m.unwrap_of_fault hfault hstmt).1]
      decide
    show m.Carries (m.typeAliases.map m.removeStatement)
    rw [hnone]
    exact m.nil_carriedOut

/-! ### All stages -/

/-- Whatever a stage plans can be carried out, and leaves a text. -/
theorem Batch.carries {edits : List Edit} (h : Batch comments settings m edits) :
    m.Carries edits := by
  cases h with
  | @normalize plan hplan =>
    have hends := normalizeExport_ends m comments settings
    rw [hplan] at hends
    cases hends with
    | plans hx _ _ hedits =>
      have hexporting := List.find?_some hx.exporting
      exact ExportedClass.carriedOut
        (m.readable_of_statement hx.exporting_mem (Or.inr hexporting)) hx hedits
  | @extract plan hplan =>
    have hends := extractTypes_ends m settings
    rw [hplan] at hends
    cases hends with
    | plans hv _ _ hedits =>
      obtain ⟨hstmt, hdeclaration, hkind, -⟩ := Module.variableNamed?_spec hv
      have hm : m.Readable := m.readable_of_statement hstmt
        (Or.inl fun herror => by rw [hdeclaration, herror] at hkind; cases hkind)
      rw [hedits]
      exact Variable.carriedOut hm hv
  | build className types =>
    unfold buildNamespace
    cases hcls : m.classNamed? className with
    | none => exact m.append_carriedOut _
    | some cls =>
      obtain ⟨stmt, hstmt, rfl, hkind, -⟩ := Module.classNamed?_spec hcls
      have hm : m.Readable := m.readable_of_statement hstmt
        (Or.inl fun herror => by rw [herror] at hkind; cases hkind)
      -- The namespace goes after the whole statement, not after the class in it.
      have htop : stmt.unwrap.topLevel = stmt :=
        (Node.below_unwrap stmt).topLevel (m.above_of_statement hstmt)
      dsimp only
      rw [htop]
      exact m.insertAfter_carriedOut hm hstmt _
  | reattach ns =>
    rcases reattachComments_edits m ns comments with
      hnone | ⟨docs, stmt, type, -, hprops, hedits⟩
    · rw [hnone]
      exact m.nil_carriedOut
    · rw [hedits]
      obtain ⟨out, hout, -⟩ := m.weave_documented hprops.readable hprops docs
      exact m.below_carriedOut hprops.readable hprops.mem_statements hprops.below hout
        (m.rising_documented hprops.readable hprops docs)
  | drop => exact dropAliases_carriedOut m
  | «export» className removed => exact m.append_carriedOut _

theorem Batch.carriedOut {edits : List Edit} (h : Batch comments settings m edits) :
    ∃ m', m.applyEdits edits = .ok m' := by
  obtain ⟨m', hm', -⟩ := h.carries
  exact ⟨m', hm'⟩

theorem Batch.not_refused {edits : List Edit} (h : Batch comments settings m edits)
    (e : EditError) : m.applyEdits edits ≠ .error e := by
  intro hrefused
  obtain ⟨m', hm'⟩ := h.carriedOut
  rw [hm'] at hrefused
  cases hrefused

end ComponentDecl
