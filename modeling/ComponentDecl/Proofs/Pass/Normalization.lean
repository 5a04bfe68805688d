import ComponentDecl.Proofs.Pass.Exported

/-! # The first batch

    The first stage exchanges the head and the type arguments of the statement
    that holds the exported class, and removes the exporting statement if that is
    another one.  On every readable module this batch can be carried out.

    Key theorems:
    - `ExportedClass.weave`: what the edits make of the class statement
    - `ExportedClass.changes_fit`: the batch as changes of statements
-/

namespace ComponentDecl

open Syntax Text

variable {m : Module} {comments : Option Comments} {settings : Settings} {x : ExportedClass}

/-! ### Nodes below a statement -/

theorem Syntax.Node.Below.full {n d : Node} (h : n.Below d) (hn : Full n.tree) : Full d.tree := by
  induction h with
  | refl => exact hn
  | @child d c _ hc ih =>
    refine ih.children _ ?_
    have : c.tree ∈ d.tree.nodes := by
      rw [← Node.children_tree]
      exact List.mem_map_of_mem hc
    exact (List.mem_filter.mp this).1

theorem Module.full_statement (hm : m.Readable) {stmt : Node} (h : stmt ∈ m.statements) :
    Full stmt.tree :=
  full_parse_children _ _ (m.mem_parse_of_statement hm h)

/-- No node below a statement is empty. -/
theorem Module.start_lt_stop (hm : m.Readable) {stmt d : Node} (h : stmt ∈ m.statements)
    (hd : stmt.Below d) : d.start < d.stop := by
  have := size_pos (hd.full (m.full_statement hm h)).spell_ne_nil
  rw [Node.stop_eq]
  omega

/-! ### The type arguments of the base -/

theorem below_extendsClause {cls clause : Node} (h : cls.extendsClause? = some clause) :
    cls.Below clause := by
  obtain ⟨heritage, hheritage, hclause⟩ := Option.bind_eq_some_iff.mp h
  exact (Node.Below.refl.child (List.mem_of_find?_eq_some hheritage)).child
    (List.mem_of_find?_eq_some hclause)

/-- The type arguments of a base are the parts of one node below its clause. -/
theorem baseTypeArguments_parts (clause : Node) :
    clause.baseTypeArguments = [] ∨
      ∃ arguments, clause.Below arguments ∧ clause.baseTypeArguments = arguments.parts := by
  unfold Node.baseTypeArguments
  dsimp only
  split
  · next arguments h =>
    refine Or.inr ⟨arguments, ?_, rfl⟩
    rcases Option.or_eq_some_iff.mp h with h | ⟨-, h⟩
    · exact Node.Below.refl.child (Node.mem_children_of_child? h)
    · obtain ⟨value, hvalue, harguments⟩ := Option.bind_eq_some_iff.mp h
      split at harguments
      · exact (Node.Below.refl.child (Node.mem_children_of_child? hvalue)).child
          (List.mem_of_find?_eq_some harguments)
      · cases harguments
  · exact Or.inl rfl

/-- The arguments that are exchanged stand in order below one node. -/
theorem ExportedClass.namedArguments_sublist (x : ExportedClass) :
    x.namedArguments = [] ∨ ∃ arguments, x.clause.Below arguments ∧
      (x.namedArguments.map (·.1)).Sublist arguments.children := by
  unfold namedArguments
  split
  · next hcount =>
    rcases baseTypeArguments_parts x.clause with hnone | ⟨arguments, hbelow, hparts⟩
    · rw [hnone] at hcount
      cases hcount
    · refine Or.inr ⟨arguments, hbelow, ?_⟩
      rw [List.map_map]
      show ((AliasKind.all.zip x.clause.baseTypeArguments).map Prod.snd).Sublist _
      rw [List.map_snd_zip (Nat.le_of_eq hcount), hparts]
      exact List.filter_sublist
  · exact Or.inl rfl

/-! ### The class statement -/

theorem ExportedClass.In.holding_mem (hx : x.In m) : x.holding ∈ m.statements :=
  hx.exports.mem_statements hx.exporting

theorem ExportedClass.In.exporting_mem (hx : x.In m) : x.exporting ∈ m.statements :=
  List.mem_of_find?_eq_some hx.exporting

/-- No variable stands in the statement of the class or in the exporting one. -/
theorem ExportedClass.In.variable_apart (hm : m.Readable) (hx : x.In m) {name : String}
    {v : Variable} (h : m.variableNamed? name = some v) :
    v.statement.start ≠ x.holding.start ∧ v.statement.start ≠ x.exporting.start := by
  obtain ⟨hvariable, hdeclaration, hkind, -⟩ := Module.variableNamed?_spec h
  obtain ⟨hexporting, hholding⟩ := hx.isExported hm
  have key : ∀ stmt ∈ m.statements, stmt.tree.unwrap.kind.isExported = true →
      v.statement.start ≠ stmt.start := by
    intro stmt hstmt hexported hstart
    obtain ⟨r, hr⟩ := m.exists_row_of_statement hvariable
    obtain rfl := m.node_eq_of_start hm hr hstmt hstart
    have hvariables : v.statement.tree.unwrap.kind.isVariables = true := by
      rw [← Node.unwrap_tree, ← hdeclaration]
      exact hkind
    rw [(Kind.isExported_cases hexported).2.1] at hvariables
    cases hvariables
  exact ⟨key _ hx.holding_mem hholding, key _ hx.exporting_mem hexporting⟩

theorem ExportedClass.In.below_named (hx : x.In m) {c : Node × String}
    (hc : c ∈ x.namedArguments) : x.holding.Below c.1 := by
  rcases x.namedArguments_sublist with hnone | ⟨arguments, hbelow, hsub⟩
  · rw [hnone] at hc
    cases hc
  · exact ((hx.exports.below.trans (below_extendsClause hx.clause)).trans hbelow).child
      (hsub.subset (List.mem_map_of_mem hc))

/-- The edits on the class statement put a text in the place of all that stands
    before the class, and a text in the place of each exchanged argument. -/
theorem ExportedClass.weave (hx : x.In m) :
    ∃ rest, ∀ head : String,
      Weave x.holding.start
        (⟨x.holding.start, x.cls.start, head⟩ :: replacements x.namedArguments)
        x.holding.tree.spell (head.toList ++ rest) := by
  obtain ⟨cls', hcls⟩ : ∃ cls', Weave x.cls.start (replacements x.namedArguments)
      x.cls.tree.spell cls' := by
    rcases x.namedArguments_sublist with hnone | ⟨arguments, hbelow, hsub⟩
    · rw [hnone]
      exact ⟨_, .done _ _⟩
    · obtain ⟨out, hout⟩ := weave_replaced hsub
      obtain ⟨before, after, hholds⟩ := ((below_extendsClause hx.clause).trans hbelow).holds
      exact ⟨_, hout.hold hholds⟩
  obtain ⟨before, after, hholds⟩ := hx.exports.below.holds
  refine ⟨cls' ++ after, fun head => ?_⟩
  have hrest := hcls.extend after
  rw [hholds.2] at hrest
  have := Weave.edit [] before head (by simpa using hrest)
  rw [hholds.1, hholds.2]
  simpa using this

/-- The edits on the class statement are ordered and start before its end. -/
theorem ExportedClass.rising (hm : m.Readable) (hx : x.In m) :
    Rising (x.edits comments) ∧ ∀ e ∈ x.edits comments, e.start < x.holding.stop := by
  obtain ⟨rest, hweave⟩ := ExportedClass.weave hx
  have hcovers : ∀ e ∈ replacements x.namedArguments, e.start < e.stop := by
    intro e he
    obtain ⟨c, hc, rfl⟩ := List.mem_map.mp he
    have := m.start_lt_stop hm hx.holding_mem (hx.below_named hc)
    show (c.1.start : Int) < c.1.stop
    omega
  have hbounds := (hweave (declareHead comments)).bounds
  refine ⟨(hweave (declareHead comments)).rising hcovers, fun e he => ?_⟩
  rcases List.mem_cons.mp he with rfl | hrest
  · have := m.start_lt_stop hm hx.holding_mem .refl
    show (x.holding.start : Int) < x.holding.stop
    omega
  · have hstop := (hbounds e he).2.2
    rw [← Node.stop_eq] at hstop
    have := hcovers e hrest
    omega

/-! ### The batch as changes -/

/-- The comment of a description, if there is one. -/
def describedBy (comments : Option Comments) : Option (List Char) :=
  match comments.bind (·.description) with
  | some d => if d.isEmpty then none else some (DocComment.render d "").toList
  | none => none

/-- Holds of comments that do not end early: the description, as it is put above
    the class, is one comment, and the texts for props are nothing but comments. -/
structure CompleteComments (comments : Option Comments) : Prop where
  description : ∀ text, describedBy comments = some text → CompleteComment text
  props : ∀ docs, comments = some docs → ∀ p ∈ docs.props,
    ∀ t ∈ (parse p.2.toList).nodes, t.kind = .comment

theorem declareHead_eq (comments : Option Comments) :
    (declareHead comments).toList = match describedBy comments with
      | some text => text ++ '\n' :: "declare ".toList
      | none => "declare ".toList := by
  unfold declareHead describedBy
  cases comments.bind (·.description) with
  | none => rfl
  | some d =>
    dsimp only
    split
    · rfl
    · simp [String.toList_append]

namespace ExportedClass

/-- The class statement without what stood before the class, declared instead,
    and with the exchanged type arguments. -/
def declaredText (x : ExportedClass) : List Char :=
  woven x.holding.start
    (⟨x.holding.start, x.cls.start, "declare "⟩ :: replacements x.namedArguments)
    x.holding.tree.spell

/-- The texts of the base's type arguments after the first batch. -/
def argumentTexts (x : ExportedClass) : List String :=
  if x.clause.baseTypeArguments.length = AliasKind.all.length then
    AliasKind.all.map fun kind => x.name ++ "." ++ kind.name
  else x.clause.baseTypeArguments.map (·.text)

/-- Holds of a tree that declares the class, with these type arguments. -/
structure Declares (x : ExportedClass) (t : Tree) : Prop where
  kind : t.kind = .ambientDeclaration
  declared : t.unwrap.kind.isClass = true
  name : t.unwrap.name? = some x.name
  base : t.unwrap.extendsClause?.map (·.baseTypeArguments.map Tree.text) = some x.argumentTexts

instance (x : ExportedClass) : DecidablePred x.Declares := fun t =>
  decidable_of_iff (t.kind = .ambientDeclaration ∧ t.unwrap.kind.isClass = true ∧
      t.unwrap.name? = some x.name ∧
      t.unwrap.extendsClause?.map (·.baseTypeArguments.map Tree.text) = some x.argumentTexts)
    ⟨fun ⟨h₁, h₂, h₃, h₄⟩ => ⟨h₁, h₂, h₃, h₄⟩, fun ⟨h₁, h₂, h₃, h₄⟩ => ⟨h₁, h₂, h₃, h₄⟩⟩

theorem Declares.declares_class {x : ExportedClass} {t : Tree} (h : x.Declares t) :
    t.declares Kind.isClass x.name = true := by
  rw [Tree.declares, h.declared, h.name, beq_self_eq_true]
  rfl

/-- The trees that come in the place of the class statement: the description, if
    there is one, and the declared class. -/
def declaredTrees (x : ExportedClass) (comments : Option Comments) : List Expected :=
  (describedBy comments).toList.map Expected.comment ++ [.made x.declaredText (x.Declares ·)]

/-- What becomes of the statements of a module in the first batch. -/
def changes (x : ExportedClass) (comments : Option Comments) : Node → Option Change :=
  Module.changeBoth x.holding (.becomes (x.edits comments) (x.declaredTrees comments)) x.exporting

end ExportedClass

/-- The trees that are read in the place of the class statement. -/
theorem ExportedClass.reads_declaredTrees (hcomplete : CompleteComments comments) {ts : List Tree}
    (h : List.Forall₂ Expected.Reads (x.declaredTrees comments) ts) :
    ∃ t, ts = (describedBy comments).toList.map (.token none .comment) ++ [t] ∧
      t.spell = x.declaredText ∧ x.Declares t := by
  obtain ⟨us₁, us₂, rfl, h₁, h₂⟩ := forall₂_append h
  cases h₂ with
  | @cons _ t _ _ ht hnil =>
    cases hnil
    refine ⟨t, ?_, ht.1, decide_eq_true_eq.mp ht.2⟩
    congr 1
    cases hdescribed : describedBy comments with
    | none =>
      rw [hdescribed] at h₁
      cases h₁
      rfl
    | some text =>
      rw [hdescribed] at h₁
      cases h₁ with
      | cons hu hnil =>
        cases hnil
        rw [Expected.reads_comment (hcomplete.description text hdescribed) hu]
        rfl

/-- The trees in the place of the class statement declare the class, or are no
    constructs. -/
theorem ExportedClass.mem_declaredTrees (hcomplete : CompleteComments comments) {ts : List Tree}
    (h : List.Forall₂ Expected.Reads (x.declaredTrees comments) ts) :
    ∀ t ∈ ts, t.isPart = false ∨ x.Declares t := by
  obtain ⟨u, rfl, -, hdeclares⟩ := ExportedClass.reads_declaredTrees hcomplete h
  intro t ht
  rcases List.mem_append.mp ht with hcomment | hclass
  · obtain ⟨text, -, rfl⟩ := List.mem_map.mp hcomment
    exact Or.inl rfl
  · exact Or.inr (List.mem_singleton.mp hclass ▸ hdeclares)

/-- Other trees come only in the place of the class statement. -/
theorem ExportedClass.changes_becomes {n : Node} {edits : List Edit} {es : List Expected}
    (h : x.changes comments n = some (.becomes edits es)) :
    n.start = x.holding.start ∧ edits = x.edits comments ∧ es = x.declaredTrees comments := by
  unfold changes Module.changeBoth at h
  split at h
  · next hstart =>
    cases h
    exact ⟨hstart, rfl, rfl⟩
  · split at h <;> cases h

/-- The edits on the class statement make the text of the trees in its place. -/
theorem ExportedClass.weave_declared (hx : x.In m) :
    Weave x.holding.start (x.edits comments) x.holding.tree.spell
      (['\n'].intercalate ((x.declaredTrees comments).map Expected.text)) := by
  obtain ⟨rest, hrest⟩ := ExportedClass.weave hx
  have htext : x.declaredText = "declare ".toList ++ rest := (hrest "declare ").eq_woven.symm
  have hwoven := hrest (declareHead comments)
  rw [declareHead_eq] at hwoven
  rw [edits, declaredTrees, htext]
  cases hdescribed : describedBy comments with
  | none => simpa [hdescribed, Expected.text] using hwoven
  | some text =>
    simpa [hdescribed, Expected.comment, Expected.text, List.intercalate] using hwoven

/-- The class statement that comes in the place of the former one is not empty. -/
theorem ExportedClass.In.declaredText_ne_nil (hx : x.In m) : x.declaredText ≠ [] := by
  obtain ⟨rest, hrest⟩ := ExportedClass.weave hx
  rw [declaredText, ← (hrest "declare ").eq_woven]
  exact List.cons_ne_nil _ _

theorem ExportedClass.changes_fit (hm : m.Readable) (hx : x.In m) :
    ∀ rn ∈ m.located, ∀ change, x.changes comments rn.2 = some change →
      change.FitsAt rn.2 := by
  intro rn hrn change hchange
  unfold changes Module.changeBoth at hchange
  split at hchange
  · next hstart =>
    obtain rfl := Option.some.inj hchange
    rw [m.node_eq_of_start hm hrn hx.holding_mem hstart]
    refine ⟨ExportedClass.weave_declared hx, _, _, rfl, fun t ht => ?_⟩
    rw [Tree.isDocComment, (decide_eq_true_eq.mp ht.2).kind]
    rfl
  · split at hchange
    · obtain rfl := Option.some.inj hchange
      trivial
    · cases hchange

theorem ExportedClass.changes_rising (hm : m.Readable) (hx : x.In m) :
    Rising (m.editsOf (x.changes comments)) := by
  refine m.rising_editsOf hm (fun rn hrn change h =>
    (ExportedClass.changes_fit hm hx rn hrn change h).makes
      (Module.placeholders_spelled h)) fun rn hrn edits es h => ?_
  obtain ⟨hstart, rfl, -⟩ := ExportedClass.changes_becomes h
  rw [m.node_eq_of_start hm hrn hx.holding_mem hstart]
  exact ExportedClass.rising hm hx

/-- The edits that the first stage plans. -/
theorem ExportedClass.perm_changes (hm : m.Readable) (hx : x.In m) {given : List Edit}
    (hgiven : given.Perm ((if x.exporting.start ≠ x.holding.start then
      [m.removeStatement x.exporting] else []) ++ x.edits comments)) :
    given.Perm (m.editsOf (x.changes comments)) :=
  hgiven.trans (m.editsOf_changeBoth hm hx.holding_mem hx.exporting_mem
    (.becomes (x.edits comments) (x.declaredTrees comments)))

/-- The batch of the first stage can be carried out. -/
theorem ExportedClass.carriedOut (hm : m.Readable) (hx : x.In m) {given : List Edit}
    (hgiven : given.Perm ((if x.exporting.start ≠ x.holding.start then
      [m.removeStatement x.exporting] else []) ++ x.edits comments)) :
    m.Carries given := by
  obtain ⟨m', hm', hreadable, -⟩ := m.applyEdits_changes hm
    (ExportedClass.changes_fit hm hx)
    (ExportedClass.changes_rising hm hx) (ExportedClass.perm_changes hm hx hgiven)
  exact ⟨m', hm', fun _ => hreadable⟩

end ComponentDecl
