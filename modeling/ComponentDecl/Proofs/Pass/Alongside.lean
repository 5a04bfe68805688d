import ComponentDecl.Proofs.Module.Akin
import ComponentDecl.Proofs.Pass.Completed
import ComponentDecl.Proofs.Pass.Diagnostics
import ComponentDecl.Proofs.DocComment.CommentLines

/-! # Two passes side by side

    Two passes on one module, each with comments of its own, are followed stage by
    stage.  After each batch the two modules are akin: their rows match one by one, but
    for the description above the class and the comments in a namespace.  No stage looks
    at these, so the next batches treat matching rows alike.

    Key theorem:
    - `Course.exported_alike`: the texts that two passes make
-/

namespace ComponentDecl

open Syntax Text

variable {m : Module} {comments comments' : Option Comments} {settings : Settings}

/-! ### What the stages ask about statements -/

/-- Holds of the statement of a loose alias. -/
def isAlias (t : Tree) : Bool := t.unwrap.kind == .typeAliasDeclaration

/-- What the stages after the second one ask about statements. -/
def laterQuestions (className : String) : List (Tree → Bool) :=
  [fun t => t.declares Kind.isClass className, fun t => t.declares Kind.isNamespace className,
    isAlias]

/-- What the stages after the first one ask about statements. -/
def questions (className helper : String) : List (Tree → Bool) :=
  (fun t => t.declaresVariable helper) :: laterQuestions className

theorem laterAnswers {t u : Tree} {className : String}
    (hclass : t.declares Kind.isClass className = u.declares Kind.isClass className)
    (hnamespace : t.declares Kind.isNamespace className = u.declares Kind.isNamespace className)
    (halias : isAlias t = isAlias u) : ∀ p ∈ laterQuestions className, p t = p u := by
  intro p hp
  simp only [laterQuestions, List.mem_cons, List.not_mem_nil, or_false] at hp
  rcases hp with rfl | rfl | rfl
  · exact hclass
  · exact hnamespace
  · exact halias

theorem isAlias_of_not_type {t : Tree} (h : t.unwrap.kind.isTypeDeclaration = false) :
    isAlias t = false :=
  beq_eq_false_iff_ne.mpr (Kind.ne_alias h)

/-- Modules that differ in what stands above classes. -/
def aboveClass (answers : List (Tree → Bool)) : Likeness :=
  ⟨fun t => t.unwrap.kind.isClass, answers⟩

/-- Modules that differ in what stands above classes and in namespaces. -/
def inNamespace (answers : List (Tree → Bool)) : Likeness :=
  ⟨fun t => t.unwrap.kind.isClass || t.unwrap.kind.isNamespace, answers⟩

/-- Statements that declare one class have the same answers. -/
theorem ExportedClass.Declares.answers {x : ExportedClass} {t u : Tree} (ht : x.Declares t)
    (hu : x.Declares u) (className helper : String) :
    ∀ p ∈ questions className helper, p t = p u := by
  have hcases := Kind.isClass_cases ht.declared
  have hcases' := Kind.isClass_cases hu.declared
  refine List.forall_mem_cons.mpr ⟨?_, laterAnswers ?_ ?_ ?_⟩
  · show t.declaresVariable helper = u.declaresVariable helper
    rw [Tree.declaresVariable, Tree.declaresVariable, hcases.2.1, hcases'.2.1]
    rfl
  · rw [Tree.declares, Tree.declares, ht.declared, hu.declared, ht.name, hu.name]
  · rw [Tree.declares_eq_false hcases.2.2.2.1, Tree.declares_eq_false hcases'.2.2.2.1]
  · rw [isAlias_of_not_type hcases.2.2.1, isAlias_of_not_type hcases'.2.2.1]

/-- Statements that declare variables have the same answers later on. -/
theorem answers_variables {t u : Tree} (ht : t.unwrap.kind.isVariables = true)
    (hu : u.unwrap.kind.isVariables = true) (className : String) :
    ∀ p ∈ laterQuestions className, p t = p u := by
  have hcases := Kind.isVariables_cases ht
  have hcases' := Kind.isVariables_cases hu
  refine laterAnswers ?_ ?_ ?_
  · rw [Tree.declares_eq_false hcases.1, Tree.declares_eq_false hcases'.1]
  · rw [Tree.declares_eq_false hcases.2.1, Tree.declares_eq_false hcases'.2.1]
  · rw [isAlias_of_not_type hcases.2.2, isAlias_of_not_type hcases'.2.2]

/-- Namespaces of one class have the same answers. -/
theorem answers_namespaces {className : String} {types types' : AliasKind → String} {t u : Tree}
    (ht : DeclaresAliases className types t) (hu : DeclaresAliases className types' u) :
    ∀ p ∈ laterQuestions className, p t = p u := by
  have hcases := Kind.isNamespace_cases ht.declared
  have hcases' := Kind.isNamespace_cases hu.declared
  refine laterAnswers ?_ ?_ ?_
  · rw [Tree.declares_eq_false hcases.1, Tree.declares_eq_false hcases'.1]
  · rw [Tree.declares, Tree.declares, ht.declared, hu.declared, ht.name, hu.name]
  · rw [isAlias_of_not_type hcases.2.2, isAlias_of_not_type hcases'.2.2]

/-! ### The description -/

/-- A description starts like a doc comment. -/
theorem prefix_render (description : String) :
    "/**".toList <+: (DocComment.render description "").toList := by
  obtain ⟨first, rest, hlines, hsettled⟩ := DocComment.exists_settled description
  have hopens := hsettled.prefix_commentText ""
  rw [DocComment.render_eq, hlines, DocComment.toList_joinLines_indented]
  exact hopens

/-- The description as a piece above the class. -/
def descriptionPieces (comments : Option Comments) : List Piece :=
  (describedBy comments).toList.map fun text => ⟨.token none .comment text, ['\n']⟩

theorem documents_descriptionPieces (comments : Option Comments) :
    ∀ p ∈ descriptionPieces comments, p.documents = true := by
  intro p hp
  obtain ⟨text, htext, rfl⟩ := List.mem_map.mp hp
  rw [describedBy] at htext
  split at htext
  · next description _ =>
    split at htext
    · cases htext
    · obtain rfl := Option.some.inj (Option.mem_toList.mp htext)
      have hstarts : "/**".toList.isPrefixOf (DocComment.render description "").toList = true :=
        List.isPrefixOf_iff_prefix.mpr (prefix_render description)
      rw [Piece.documents, Tree.isDocComment, Tree.spell_token, hstarts]
      rfl
  · cases htext

/-- The description with the end of its line, if there is one. -/
def descriptionBlocks (comments : Option Comments) : Blocks :=
  (describedBy comments).toList.map (· ++ ['\n'])

/-- The comments of so many props, each on lines of its own. -/
def DocBlocks (comments : Option Comments) (count : Nat) (blocks : Blocks) : Prop :=
  blocks.length = count ∧ ∀ block ∈ blocks, IsDocBlock comments block

/-- The blocks that a pass puts in, in any order: the description, and the comments of so
    many props. -/
def AddedBlocks (comments : Option Comments) (documented : Nat) (blocks : Blocks) : Prop :=
  ∃ docs, DocBlocks comments documented docs ∧ blocks.Perm (descriptionBlocks comments ++ docs)

/-- The description is a block above the class. -/
theorem alike_description (comments comments' : Option Comments) (docs : List Piece)
    {s : List Char} (hs : s ≠ []) :
    Alike (descriptionBlocks comments) (descriptionBlocks comments')
      (piecesText (docs ++ descriptionPieces comments) ++ s)
      (piecesText (docs ++ descriptionPieces comments') ++ s) := by
  have key : ∀ (comments : Option Comments) {bs' : Blocks} {t : List Char}, Alike [] bs' s t →
      Alike (descriptionBlocks comments) bs' (piecesText (descriptionPieces comments) ++ s) t := by
    intro comments bs' t h
    rw [descriptionPieces, descriptionBlocks]
    cases describedBy comments with
    | none => exact h
    | some text =>
      have hblock := h.block hs (text ++ ['\n'])
      simpa using hblock
  rw [piecesText_append, piecesText_append, List.append_assoc, List.append_assoc]
  exact (Alike.refl (piecesText docs)).append (key comments (key comments' (.refl s)).symm)

theorem lined_description (comments : Option Comments) (D : Tree) (gap : List Char) :
    lined ((describedBy comments).toList.map (.token none .comment) ++ [D]) gap =
      descriptionPieces comments ++ [⟨D, gap⟩] := by
  rw [descriptionPieces]
  cases describedBy comments with
  | none => rfl
  | some text => rfl

namespace Course

variable {c : Course comments settings m} {c' : Course comments' settings m} {x : ExportedClass}
  {v : Variable} {home : Node}

/-! ### The class -/

/-- What becomes of the rows of the module in the first batch. -/
def classFate (x : ExportedClass) (comments : Option Comments) (D : Tree) (rn : Row × Node) :
    Fate :=
  if rn.2.start = x.holding.start then
    .turns (x.edits comments) ((describedBy comments).toList.map (.token none .comment) ++ [D])
  else if rn.2.start = x.exporting.start then .goes
  else rn.1.stays

/-- The first batch puts the description and the declared class in the place of the
    class. -/
theorem WorksOn.left_normalized (hw : c.WorksOn x v home) (hcomplete : CompleteComments comments)
    (hfirst : ReadsNormalized comments settings m) :
    ∃ D, x.Declares D ∧ D.spell = x.declaredText ∧
      settled true m.lead m.lead (m.located.map fun rn => (rn.1, classFate x comments D rn)) =
        (c.normalized.lead, c.normalized.rows) := by
  have hm := hw.readable
  have hx := hw.exported
  obtain ⟨trees, htrees, hlead, hrows⟩ := m.left_changes hm (ExportedClass.changes_fit hm hx)
    (ExportedClass.changes_rising hm hx) (ExportedClass.perm_changes hm hx hw.edits)
    c.toNormalized (hfirst x _ _ hx c.normalizes c.toNormalized)
  obtain ⟨r, hr⟩ := m.exists_row_of_statement hx.holding_mem
  have hat : x.changes comments x.holding =
      some (.becomes (x.edits comments) (x.declaredTrees comments)) := if_pos rfl
  obtain ⟨D, hD, hspell, hdeclares⟩ :=
    ExportedClass.reads_declaredTrees hcomplete (htrees (r, x.holding) hr _ _ hat)
  refine ⟨D, hdeclares, hspell, ?_⟩
  -- Only the statement of the class and the one that exports it have a fate of their own.
  have hfates : m.fates (Module.fateOf (x.changes comments) trees) =
      m.located.map fun rn => (rn.1, classFate x comments D rn) := by
    refine List.map_congr_left fun rn hrn => ?_
    rw [classFate, Module.fateOf]
    by_cases hholding : rn.2.start = x.holding.start
    · rw [m.node_eq_of_start hm hrn hx.holding_mem hholding, hat, if_pos rfl, ← hD]
      rfl
    · rw [if_neg hholding, ExportedClass.changes, Module.changeBoth, if_neg hholding]
      split
      · rfl
      · rfl
  rw [← hfates, hlead, hrows]
  rfl

/-- After the first batch the modules differ in what stands above the class. -/
theorem normalized_akin (hw : c.WorksOn x v home) (hw' : c'.WorksOn x v home)
    (hcomplete : CompleteComments comments) (hcomplete' : CompleteComments comments')
    (hfirst : ReadsNormalized comments settings m)
    (hfirst' : ReadsNormalized comments' settings m) (className helper : String) :
    Akin (aboveClass (questions className helper))
      (descriptionBlocks comments) (descriptionBlocks comments') c.normalized c'.normalized := by
  have hm := hw.readable
  obtain ⟨D, hD, hspell, hleft⟩ := hw.left_normalized hcomplete hfirst
  obtain ⟨D', hD', hspell', hleft'⟩ := hw'.left_normalized hcomplete' hfirst'
  obtain ⟨r, hr⟩ := m.exists_row_of_statement hw.holding_mem
  obtain ⟨before, after, hsplit⟩ := List.append_of_mem hr
  obtain ⟨-, hcons, hbefore⟩ := List.pairwise_append.mp (hsplit ▸ m.located_rising hm)
  have hafter := (List.pairwise_cons.mp hcons).1
  -- Away from the class both passes do the same, with no description.
  have hothers : ∀ rn ∈ m.located, rn.2.start ≠ x.holding.start →
      AkinFate (aboveClass (questions className helper)) [] []
        (rn.1, classFate x comments D rn) (rn.1, classFate x comments' D' rn) := by
    intro rn hrn hne
    rw [classFate, classFate, if_neg hne, if_neg hne]
    have hdocs := Module.documents_of_located hrn
    split
    · exact .goes rfl
    · exact .stays (.refl _ _) hdocs hdocs
  have hdocs : ∀ p ∈ r.docs, p.documents = true := Module.documents_of_located hr
  have hrow : ∀ (comments : Option Comments) (D : Tree) (gap : List Char),
      rows (r.docs ++ lined ((describedBy comments).toList.map (.token none .comment) ++ [D]) gap) =
        [⟨r.docs ++ descriptionPieces comments, ⟨D, gap⟩⟩] := by
    intro comments D gap
    rw [lined_description, ← List.append_assoc, rows_docs_singleton]
    exact List.forall_mem_append.mpr ⟨hdocs, documents_descriptionPieces comments⟩
  -- The class gets one description or the other, and is declared in the same text.
  have hclass : AkinFate (aboveClass (questions className helper))
      (descriptionBlocks comments) (descriptionBlocks comments')
      (r, classFate x comments D (r, x.holding)) (r, classFate x comments' D' (r, x.holding)) := by
    rw [classFate, classFate, if_pos rfl, if_pos rfl]
    refine .turns rfl fun gap => ?_
    rw [hrow, hrow]
    refine .single (.differs _ _ gap hD.declared hD'.declared ?_ (hD.answers hD' _ _))
    rw [hspell, hspell']
    exact alike_description comments comments' r.docs hw.exported.declaredText_ne_nil
  -- The rows before the class, the class, and the rows after it.
  have hmatches := (Matches.of_map fun rn hrn => hothers rn
      (by rw [hsplit]; exact List.mem_append_left _ hrn)
      (Nat.ne_of_lt (hbefore rn hrn _ (.head _)))).append
    (.cons hclass (Matches.of_map fun rn hrn => hothers rn
      (by rw [hsplit]; exact List.mem_append_right _ (.tail _ hrn))
      (Nat.ne_of_gt (hafter rn hrn))))
  rw [List.nil_append, List.nil_append, List.append_nil, List.append_nil] at hmatches
  obtain ⟨hlead, hrows⟩ := settled_akin hmatches true m.lead m.lead
  have hall : ∀ fate : Row × Node → Fate, m.located.map (fun rn => (rn.1, fate rn)) =
      before.map (fun rn => (rn.1, fate rn)) ++ (r, fate (r, x.holding)) ::
        after.map fun rn => (rn.1, fate rn) := by
    intro fate
    rw [hsplit, List.map_append, List.map_cons]
  rw [← hall (classFate x comments D), ← hall (classFate x comments' D'), hleft, hleft']
    at hlead hrows
  exact ⟨hlead, _, _, .refl _, .refl _, hrows⟩

/-! ### The helper variable -/

/-- The second batch takes the helper variable away. -/
theorem WorksOn.turns_extracted (hw : c.WorksOn x v home) (hcomplete : CompleteComments comments)
    (hlocal : ReadsLocally comments settings m) :
    ∃ stmt fate, stmt.tree = v.statement.tree ∧
      c.normalized.TurnsFirst (fun t => t.declaresVariable settings.helperVariable) stmt fate
        c.extracted ∧
      (v.declaration.declarators.length = 1 ∧ fate = .goes ∨
        v.declaration.declarators.length ≠ 1 ∧ ∃ edits R, fate = .turns edits [R] ∧
          R.spell = v.remainingText m ∧ v.Remains R) := by
  have hm := hw.readable
  have hₖ : c.normalized.Readable := (c.onTheWay _ (by simp)).readable hm
  have hextract := extractTypes_ends c.normalized settings
  rw [c.extracts] at hextract
  cases hextract with
  | @plans v₁ hv₁ hall plan htypes hedits =>
  obtain ⟨htree, -, -⟩ := hw.exported.variable_moves hm hcomplete hw.edits c.toNormalized
    (hlocal.first x _ _ hw.exported c.normalizes c.toNormalized) hw.helper hv₁
  obtain ⟨hlength, htext⟩ := Variable.remainingText_congr hm hₖ hw.helper hv₁ htree
  have hstmt := (Module.variableNamed?_spec hv₁).1
  obtain ⟨r, hr⟩ := c.normalized.exists_row_of_statement hstmt
  -- The batch is the removal of the variable, or of its statement if it is the only one.
  have hchange : c.normalized.changeEdits v₁.statement (some (v₁.change c.normalized)) =
      [c.normalized.removeVariable v₁] :=
    (c.normalized.editsOf_changeAt hₖ hstmt _).symm.trans (Variable.editsOf_changes hₖ hv₁)
  have happly := c.toExtracted
  rw [hedits, ← hchange] at happly
  obtain ⟨ts, hts, hturns⟩ := Module.turnsFirst_changeAt hₖ
    (fun _ => Tree.isPart_of_declaresVariable) (Module.variableNamed?_first hv₁)
    (Variable.changes_fit hₖ hv₁ _ hr _ (if_pos rfl))
    (by rw [hchange]; exact List.pairwise_singleton _ _) happly
    ((hlocal.others c).extracted v₁ hv₁)
  refine ⟨v₁.statement, _, htree, hturns, ?_⟩
  rw [Variable.change] at hts ⊢
  by_cases hone : v.declaration.declarators.length = 1
  · rw [if_pos (hlength.trans hone)]
    exact Or.inl ⟨hone, rfl⟩
  · rw [if_neg (hlength ▸ hone)] at hts ⊢
    cases hts _ _ rfl with
    | @cons _ R _ _ hread hnil =>
    cases hnil
    exact Or.inr ⟨hone, _, R, rfl, hread.1.trans (htext hone),
      Variable.remains_congr hw.helper hv₁ htree (decide_eq_true_eq.mp hread.2)⟩

/-- The second batch treats akin modules alike. -/
theorem extracted_akin (hw : c.WorksOn x v home) (hw' : c'.WorksOn x v home)
    (hcomplete : CompleteComments comments) (hcomplete' : CompleteComments comments')
    (hlocal : ReadsLocally comments settings m) (hlocal' : ReadsLocally comments' settings m)
    {className : String} {bs bs' : Blocks}
    (h : Akin (aboveClass (questions className settings.helperVariable)) bs bs' c.normalized
      c'.normalized) :
    Akin (aboveClass (laterQuestions className)) bs bs' c.extracted c'.extracted := by
  obtain ⟨stmt, fate, htree, hturns, hfate⟩ := hw.turns_extracted hcomplete hlocal
  obtain ⟨stmt', fate', htree', hturns', hfate'⟩ := hw'.turns_extracted hcomplete' hlocal'
  have hall := @Akin.turns _ (aboveClass (laterQuestions className)) _ _ _ _ _ _ h _ (.head _)
    _ _ _ _ hturns hturns' (fun _ _ _ _ hrq => hrq.mono (fun _ ht => ht) (List.subset_cons_self _ _))
    [] [] fun cs cs' r q hdocs hdocs' hr hq hrq => ?_
  · rwa [List.append_nil, List.append_nil] at hall
  have hclass : (aboveClass (questions className settings.helperVariable)).touched r.last.tree =
      false := by
    rw [hr, htree]
    exact (Kind.isVariables_cases hw.helper_kind).1
  obtain ⟨rfl, rfl, hsame, -⟩ := hrq.of_untouched hclass
  rcases hfate with ⟨hone, rfl⟩ | ⟨hmore, edits, R, rfl, hspell, hR⟩
  · obtain ⟨-, rfl⟩ := hfate'.resolve_right fun hmore => hmore.1 hone
    exact .goes hrq.gap_eq
  · obtain ⟨-, edits', R', rfl, hspell', hR'⟩ := hfate'.resolve_left fun hone => hmore hone.1
    refine .turns_single hrq.gap_eq hdocs hdocs' fun gap => ?_
    rw [hsame]
    refine .same _ gap (hspell.trans hspell'.symm) (answers_variables ?_ ?_ className)
    · rw [hR.declaration]
      exact (Module.variableNamed?_spec hw.helper).2.2.1
    · rw [hR'.declaration]
      exact (Module.variableNamed?_spec hw.helper).2.2.1

/-! ### The namespace -/

/-- Both passes capture the same types. -/
theorem WorksOn.captured_eq (hw : c.WorksOn x v home) (hw' : c'.WorksOn x v home)
    (hcomplete : CompleteComments comments) (hcomplete' : CompleteComments comments')
    (hfirst : ReadsNormalized comments settings m)
    (hfirst' : ReadsNormalized comments' settings m) :
    c.extraction.result = c'.extraction.result := by
  have hget : ∀ kind, c.extraction.result.get kind = c'.extraction.result.get kind := fun kind =>
    Option.some.inj ((hw.captured hcomplete hfirst kind).symm.trans
      (hw'.captured hcomplete' hfirst' kind))
  have hprops := hget .props
  have hevents := hget .events
  have hslots := hget .slots
  simp only [CapturedTypes.get] at hprops hevents hslots
  generalize c.extraction.result = types at hprops hevents hslots ⊢
  generalize c'.extraction.result = types' at hprops hevents hslots ⊢
  cases types
  cases types'
  simp only at hprops hevents hslots
  rw [hprops, hevents, hslots]

/-- The third batch puts the namespace after the first class of the name. -/
theorem WorksOn.turns_joined (hw : c.WorksOn x v home) (hcomplete : CompleteComments comments)
    (hlocal : ReadsLocally comments settings m) :
    ∃ stmt edits N, NewNamespace settings c.className c.extraction.result N ∧
      c.extracted.TurnsFirst (fun t => t.declares Kind.isClass c.className) stmt
        (.turns edits [stmt.tree, .token none .comment (Namespace.docText c.className), N])
        c.joined := by
  have hothers := hlocal.others c
  obtain ⟨hₖ, stmt, hstmt⟩ := hw.exists_class hcomplete hlocal.first hothers
  have happly : c.extracted.applyEdits (buildNamespace c.extracted c.className
      c.extraction.result settings).edits = .ok c.joined := c.toJoined
  rw [buildNamespace_edits hstmt] at happly
  obtain ⟨ts, hts, hturns⟩ := Module.turnsFirst_changeAt hₖ
    (fun _ => declaresParts_class.isPart_of_declares) hstmt
    (joinChange_fits c.className c.extraction.result settings stmt) (List.pairwise_singleton _ _)
    happly (hothers.joined stmt hstmt)
  obtain ⟨N, rfl, hspell, hN⟩ := reads_joinChange (hts _ _ rfl)
  exact ⟨stmt, _, N, ⟨hspell, hN⟩, hturns⟩

/-- The third batch treats akin modules alike. -/
theorem joined_akin (hw : c.WorksOn x v home) (hw' : c'.WorksOn x v home)
    (hcomplete : CompleteComments comments) (hcomplete' : CompleteComments comments')
    (hlocal : ReadsLocally comments settings m) (hlocal' : ReadsLocally comments' settings m)
    {bs bs' : Blocks}
    (h : Akin (aboveClass (laterQuestions x.name)) bs bs' c.extracted c'.extracted) :
    Akin (aboveClass (laterQuestions x.name)) bs bs' c.joined c'.joined := by
  obtain ⟨stmt, edits, N, hN, hturns⟩ := hw.turns_joined hcomplete hlocal
  obtain ⟨stmt', edits', N', hN', hturns'⟩ := hw'.turns_joined hcomplete' hlocal'
  rw [hw.name] at hN hturns
  rw [hw'.name] at hN' hturns'
  rw [← hw.captured_eq hw' hcomplete hcomplete' hlocal.first hlocal'.first] at hN'
  have hclass : ∀ t : Tree, t.declares Kind.isClass x.name = true → t.isPart = true :=
    fun _ => declaresParts_class.isPart_of_declares
  have hall := @Akin.turns _ (aboveClass (laterQuestions x.name)) _ _ _ _ _ _ h _ (.head _)
    _ _ _ _ hturns hturns' (fun _ _ _ _ hrq => hrq) [] []
    fun cs cs' r q hdocs hdocs' hr hq hrq => .turns hrq.gap_eq fun gap => ?_
  · rwa [List.append_nil, List.append_nil] at hall
  rw [List.append_nil, List.append_nil, ← hr, ← hq]
  refine hrq.followed hdocs hdocs' (hr ▸ hclass _ hturns.holds)
    (hq ▸ hclass _ hturns'.holds) _
    (hN.spell.trans hN'.spell.symm) (answers_namespaces hN.declares hN'.declares) gap

/-! ### The comments of props -/

/-- The fourth batch puts comments into the first namespace of the name. -/
theorem turns_documented (hₖ : c.joined.Readable) (hlocal : c.Local) {stmt : Node}
    (hfind : c.joined.statements.find? (·.tree.declares Kind.isNamespace c.className) =
      some stmt) :
    ∃ edits t blocks, DocBlocks comments c.documentedProps blocks ∧
      Inserted blocks stmt.tree.spell t.spell ∧
      (∀ p ∈ laterQuestions c.className, p t = p stmt.tree) ∧
      c.joined.TurnsFirst (fun t => t.declares Kind.isNamespace c.className) stmt
        (.turns edits [t]) c.documented := by
  have hpart : ∀ t : Tree, t.declares Kind.isNamespace c.className = true → t.isPart = true :=
    fun _ => declaresParts_namespace.isPart_of_declares
  have happly : c.joined.applyEdits (reattachComments c.joined c.className comments).edits =
    .ok c.documented := c.toDocumented
  -- As many doc comments are put in as props are documented.
  have hcount : c.documentedProps =
      (reattachComments c.joined c.className comments).edits.length :=
    reattachComments_result c.joined c.className comments
  by_cases hnone : (reattachComments c.joined c.className comments).edits = []
  · rw [hnone] at happly hcount
    rw [c.joined.applyEdits_nil] at happly
    rw [← Except.ok.inj happly]
    exact ⟨[], stmt.tree, [], ⟨hcount.symm, List.forall_mem_nil _⟩, .none _, fun _ _ => rfl,
      Module.turnsFirst_stays hₖ hpart hfind⟩
  · obtain ⟨docs, stmt', type, rfl, htype, hedits⟩ :=
      (reattachComments_edits c.joined c.className comments).resolve_left hnone
    obtain rfl := Option.some.inj (hfind.symm.trans htype.statement)
    rw [hedits] at happly hcount
    obtain ⟨ts, hts, hturns⟩ := Module.turnsFirst_changeAt hₖ hpart hfind
      (documentChange_fits hₖ htype docs) (c.joined.rising_documented hₖ htype docs) happly
      (hlocal.documented docs stmt type rfl htype hnone)
    cases hts _ _ rfl with
    | @cons _ t _ _ hread hnil =>
    cases hnil
    have hdocuments := decide_eq_true_eq.mp hread.2
    have hspell : t.spell = c.joined.documentedStatement docs stmt type := hread.1
    refine ⟨_, t, docBlocks docs type, ⟨?_, fun _ => isDocBlock_of_mem⟩, ?_, ?_, hturns⟩
    · rw [hcount, Module.documentEdits, fullReplacements]
      simp [docBlocks]
    · rw [hspell]
      exact documentedStatement_inserted hₖ htype docs
    · refine laterAnswers ?_ ?_ ?_
      · rw [Tree.declares, Tree.declares, hdocuments.declared, hdocuments.name]
      · rw [Tree.declares, Tree.declares, hdocuments.declared, hdocuments.name]
      · rw [isAlias, isAlias, hdocuments.declared]

/-- After the fourth batch the modules differ in the comments of props as well. -/
theorem documented_akin (hw : c.WorksOn x v home) (hw' : c'.WorksOn x v home)
    (hcomplete : CompleteComments comments) (hcomplete' : CompleteComments comments')
    (hlocal : ReadsLocally comments settings m) (hlocal' : ReadsLocally comments' settings m)
    {bs bs' : Blocks}
    (h : Akin (aboveClass (laterQuestions x.name)) bs bs' c.joined c'.joined) :
    ∃ docs docs', DocBlocks comments c.documentedProps docs ∧
      DocBlocks comments' c'.documentedProps docs' ∧
      Akin (inNamespace (laterQuestions x.name)) (bs ++ docs) (bs' ++ docs') c.documented
        c'.documented := by
  obtain ⟨hₖ, stmt, hfind⟩ := hw.exists_namespace hcomplete hlocal.first (hlocal.others c)
  obtain ⟨hₖ', stmt', hfind'⟩ :=
    hw'.exists_namespace hcomplete' hlocal'.first (hlocal'.others c')
  obtain ⟨edits, t, docs, hdocs, hins, hanswers, hturns⟩ :=
    c.turns_documented hₖ (hlocal.others c) hfind
  obtain ⟨edits', t', docs', hdocs', hins', hanswers', hturns'⟩ :=
    c'.turns_documented hₖ' (hlocal'.others c') hfind'
  rw [hw.name] at hanswers hturns
  rw [hw'.name] at hanswers' hturns'
  refine ⟨docs, docs', hdocs, hdocs', ?_⟩
  refine @Akin.turns _ (inNamespace (laterQuestions x.name)) _ _ _ _ _ _ h _ (.tail _ (.head _))
    _ _ _ _ hturns hturns' (fun _ _ _ _ hrq => hrq.mono (fun t ht => ?_) fun _ hp => hp) _ _
    fun cs cs' r q hdocs hdocs' hr hq hrq => ?_
  · exact Bool.or_eq_true_iff.mpr (Or.inl ht)
  have hspace := hturns.holds
  have hspace' := hturns'.holds
  -- A namespace was no class before, so both modules spell it alike up to here.
  have hno : (aboveClass (laterQuestions x.name)).touched r.last.tree = false := by
    rw [Tree.declares, Bool.and_eq_true] at hspace
    rw [hr]
    exact (Kind.isNamespace_cases hspace.1).1
  obtain ⟨rfl, rfl, hsame, htext⟩ := hrq.of_untouched hno
  have hsame_answers : ∀ p ∈ laterQuestions x.name, p t = p t' := by
    intro p hp
    rw [hanswers p hp, hanswers' p hp, ← hr, ← hq]
    exact hrq.answer_eq hp
  -- From now on namespaces of the name may differ, but not in what the later stages ask.
  have htouched : ∀ {t stmt : Tree}, stmt.declares Kind.isNamespace x.name = true →
      (∀ p ∈ laterQuestions x.name, p t = p stmt) →
      (inNamespace (laterQuestions x.name)).touched t = true := by
    intro t stmt hstmt hanswers
    have ht := hanswers (fun t => t.declares Kind.isNamespace x.name) (.tail _ (.head _))
    rw [hstmt, Tree.declares, Bool.and_eq_true] at ht
    exact Bool.or_eq_true_iff.mpr (Or.inr ht.1)
  refine .turns_single hrq.gap_eq hdocs hdocs' fun gap => ?_
  rw [hsame]
  refine .differs _ _ gap (htouched hspace hanswers) (htouched hspace' hanswers') ?_ hsame_answers
  have hbase : Alike docs docs' t.spell t'.spell := by
    rw [← hr, htext, hq] at hins
    exact ⟨_, hins, hins'⟩
  exact (Alike.refl _).append hbase

/-! ### Loose aliases and the export -/

/-- What becomes of the rows of the module in the fifth batch. -/
def aliasFate (r : Row) : Fate := if isAlias r.last.tree then .goes else r.stays

/-- The fifth batch takes the rows of the loose aliases away. -/
theorem left_thinned (hₖ : c.documented.Readable) (hlocal : c.Local) :
    settled true c.documented.lead c.documented.lead
        (c.documented.rows.map fun r => (r, aliasFate r)) = (c.thinned.lead, c.thinned.rows) := by
  obtain ⟨trees, -, hlead, hrows⟩ := c.documented.left_changes hₖ (fun _ _ _ => aliasesGo_fits)
    (rising_aliasesGo hₖ) (.of_eq c.documented.editsOf_aliasesGo.symm) c.toThinned hlocal.thinned
  have hfates : c.documented.fates (Module.fateOf aliasesGo trees) =
      c.documented.rows.map fun r => (r, aliasFate r) := by
    rw [← c.documented.located_rows, List.map_map]
    refine List.map_congr_left fun rn hrn => ?_
    have hlast : rn.1.last.tree = rn.2.tree := Module.last_tree hrn
    rw [Function.comp_apply, aliasFate, hlast, isAlias, Module.fateOf, aliasesGo]
    by_cases hkind : rn.2.tree.unwrap.kind = .typeAliasDeclaration
    · rw [if_pos hkind, if_pos (beq_iff_eq.mpr hkind)]
      rfl
    · rw [if_neg hkind, if_neg fun h => hkind (beq_iff_eq.mp h)]
      rfl
  rw [← hfates, hlead, hrows]
  rfl

/-- The fifth batch treats akin modules alike. -/
theorem thinned_akin (hₖ : c.documented.Readable) (hₖ' : c'.documented.Readable)
    (hlocal : c.Local) (hlocal' : c'.Local) {className : String} {bs bs' : Blocks}
    (h : Akin (inNamespace (laterQuestions className)) bs bs' c.documented c'.documented) :
    Akin (inNamespace (laterQuestions className)) bs bs' c.thinned c'.thinned := by
  refine h.batch (fun r hr q hq cs cs' hrq => ?_) (left_thinned hₖ hlocal)
    (left_thinned hₖ' hlocal')
  have hanswer : isAlias r.last.tree = isAlias q.last.tree :=
    hrq.answer_eq (.tail _ (.tail _ (.head _)))
  rw [aliasFate, aliasFate, ← hanswer]
  split
  · next halias =>
    have hkind : r.last.tree.unwrap.kind = .typeAliasDeclaration := beq_iff_eq.mp halias
    have hno : (inNamespace (laterQuestions className)).touched r.last.tree = false := by
      show (r.last.tree.unwrap.kind.isClass || r.last.tree.unwrap.kind.isNamespace) = false
      rw [hkind]
      rfl
    obtain ⟨rfl, rfl, -, -⟩ := hrq.of_untouched hno
    exact .goes hrq.gap_eq
  · exact .stays hrq (c.documented.grouped_moduleRows.1 r hr)
      (c'.documented.grouped_moduleRows.1 q hq)

/-- The texts that two passes make are one text with the blocks of each put in. -/
theorem exported_alike (hw : c.WorksOn x v home) (hw' : c'.WorksOn x v home)
    (hcomplete : CompleteComments comments) (hcomplete' : CompleteComments comments')
    (hlocal : ReadsLocally comments settings m) (hlocal' : ReadsLocally comments' settings m) :
    ∃ blocks blocks', AddedBlocks comments c.documentedProps blocks ∧
      AddedBlocks comments' c'.documentedProps blocks' ∧
      Alike blocks blocks' c.exported.chars c'.exported.chars := by
  have hm := hw.readable
  have hnormalized := normalized_akin hw hw' hcomplete hcomplete' hlocal.first hlocal'.first x.name
    settings.helperVariable
  have hextracted := extracted_akin hw hw' hcomplete hcomplete' hlocal hlocal' hnormalized
  have hjoined := joined_akin hw hw' hcomplete hcomplete' hlocal hlocal' hextracted
  obtain ⟨docs, docs', hdocs, hdocs', hdocumented⟩ :=
    documented_akin hw hw' hcomplete hcomplete' hlocal hlocal' hjoined
  have hthinned := thinned_akin ((c.onTheWay _ (by simp)).readable hm)
    ((c'.onTheWay _ (by simp)).readable hm) (hlocal.others c) (hlocal'.others c') hdocumented
  obtain ⟨blocks, blocks', hperm, hperm', halike⟩ := hthinned.alike
  have hₖ : c.thinned.Readable := (c.onTheWay _ (by simp)).readable hm
  have hₖ' : c'.thinned.Readable := (c'.onTheWay _ (by simp)).readable hm
  obtain ⟨-, hchars⟩ := c.thinned.chars_append hₖ c.toExported
  obtain ⟨-, hchars'⟩ := c'.thinned.chars_append hₖ' c'.toExported
  refine ⟨blocks, blocks', ⟨docs, hdocs, hperm⟩, ⟨docs', hdocs', hperm'⟩, ?_⟩
  rw [hchars, hchars', show c.normalization.result = x.name from hw.name,
    show c'.normalization.result = x.name from hw'.name,
    Module.append_congr hₖ hₖ' halike.getLast?_eq]
  have hall := halike.append
    (.refl (c'.thinned.append ("export default " ++ x.name ++ ";")).text.toList)
  rwa [List.append_nil, List.append_nil] at hall

end Course

end ComponentDecl
