import ComponentDecl.Proofs.Module.LineCount
import ComponentDecl.Proofs.Pass.Classification
import ComponentDecl.Proofs.Text.HeadLine

/-! # Where a failure points

    A failure describes the offending node by its type, its line and the head of its
    text.  What the first stage finds is described on the module before the pass.  A
    helper variable without a member is described on the module of the first batch,
    which the rollback takes back.  Its type and its head are those that it had before;
    its line is off by the lines that the first batch adds above it.

    Key theorem:
    - `process_points`: what a failure describes, and on which line
-/

namespace ComponentDecl

open Syntax Text

variable {m m' : Module} {comments : Option Comments} {settings : Settings} {x : ExportedClass}

/-! ### Offending nodes -/

/-- The description of a node, given its line and its head. -/
def Syntax.Node.describedAs (n : Node) (line : Nat) (head : String) : String :=
  s!"{n.typeName} at line {line}: {head}"

/-- The node of a module that a failure is about. -/
inductive Offends (m : Module) (settings : Settings) : Failure → Node → Prop where
  /-- What is exported, if it is known, or the statement that exports. -/
  | nonClass {exported : DefaultExport} (h : m.defaultExport? = some exported)
    (hclass : exported.declaration.filter (·.kind.isClass) = none) (text : String) :
    Offends m settings (.exportedNonClass text) (exported.declaration.getD exported.statement)
  /-- The class without a name. -/
  | unnamed {exported : DefaultExport} {cls : Node} (h : m.defaultExport? = some exported)
    (hclass : exported.declaration = some cls) (hkind : cls.kind.isClass = true)
    (hname : cls.name? = none) (text : String) : Offends m settings (.unnamedClass text) cls
  /-- The class without a base. -/
  | noHeritage {exported : DefaultExport} {cls : Node} {name : String}
    (h : m.defaultExport? = some exported) (hclass : exported.declaration = some cls)
    (hkind : cls.kind.isClass = true) (hname : cls.name? = some name)
    (hclause : cls.extendsClause? = none) (text : String) :
    Offends m settings (.missingHeritage name text) cls
  /-- The clause that names the base. -/
  | mismatch {x : ExportedClass} (hx : x.In m) (hcount : x.clause.baseTypeArguments.length ≠ 3)
    (text : String) :
    Offends m settings (.argumentMismatch x.name x.clause.baseTypeArguments.length text) x.clause
  /-- The helper variable. -/
  | noMember {v : Variable} (h : m.variableNamed? settings.helperVariable = some v)
    {kind : AliasKind} (hkind : (m.variableMembers v).firstMissing? = some kind) (text : String) :
    Offends m settings (.missingMember settings.helperVariable kind text) v.declarator

/-- The first stage describes the offending node of the module it looks at. -/
theorem mention_of_normalizeExport {f : Failure} {d : String}
    (h : normalizeExport m comments settings = .error f) (hnode : f.node = some d) :
    ∃ n, Offends m settings f n ∧ d = m.mention n := by
  have hends := normalizeExport_ends m comments settings
  rw [h] at hends
  cases hends with
  | noExport => cases hnode
  | nonClass hexported hclass =>
    obtain rfl := Option.some.inj hnode
    exact ⟨_, .nonClass hexported hclass _, rfl⟩
  | unnamed hexported hclass hkind hname =>
    obtain rfl := Option.some.inj hnode
    exact ⟨_, .unnamed hexported hclass hkind hname _, rfl⟩
  | noHeritage hexported hclass hkind hname hclause =>
    obtain rfl := Option.some.inj hnode
    exact ⟨_, .noHeritage hexported hclass hkind hname hclause _, rfl⟩
  | mismatch hx hcount hpolicy =>
    obtain rfl := Option.some.inj hnode
    exact ⟨_, .mismatch hx hcount _, rfl⟩

/-! ### Lines -/

/-- The first batch of a pass, if the first stage has a plan. -/
def Module.firstBatch (m : Module) (comments : Option Comments) (settings : Settings) :
    List Edit :=
  match normalizeExport m comments settings with
  | .ok plan => plan.edits
  | .error _ => []

/-- The line of a node in a row is told by the text before the row's statement and the
    text before the node in it. -/
theorem Module.lineOf_below (hm : m.Readable) {A B : List Row} {r : Row}
    (hrows : m.rows = A ++ r :: B) {d : Node} (hd : (m.nodeAt A r).Below d) :
    ∃ inner rest, r.last.tree.spell = inner ++ rest ∧
      d.start = (m.nodeAt A r).start + size inner ∧
      m.lineOf d = (m.lead ++ (rowsText A ++ piecesText r.docs)).count '\n' +
        inner.count '\n' + 1 := by
  obtain ⟨inner, rest, hspell, hplace⟩ := hd.holds
  refine ⟨inner, d.tree.spell ++ rest, hspell, hplace, ?_⟩
  have hsource : m.source = encodeChars ((m.lead ++ (rowsText A ++ piecesText r.docs) ++ inner) ++
      (d.tree.spell ++ (rest ++ (r.last.gap ++ rowsText B)))) := by
    have hsource : m.source = encodeChars m.chars := hm
    have hspell : r.last.tree.spell = inner ++ (d.tree.spell ++ rest) := hspell
    rw [hsource, chars_rows, hrows, rowsText_append, rowsText_cons, hspell]
    simp
  have hstart : d.start = size (m.lead ++ (rowsText A ++ piecesText r.docs) ++ inner) := by
    rw [hplace, start_nodeAt, size_append _ inner]
  rw [lineOf, hsource, hstart, encodeChars_append, size, List.take_left, count_encodeChars,
    List.count_append]

/-- The first batch puts no variable into the place of a row. -/
theorem ExportedClass.lacks_variable (hcomplete : CompleteComments comments) {name : String}
    {trees : Node → List Tree}
    (htrees : ∀ rn ∈ m.located, ∀ edits es, x.changes comments rn.2 = some (.becomes edits es) →
      List.Forall₂ Expected.Reads es (trees rn.2))
    {rn : Row × Node} (hrn : rn ∈ m.located) (hno : rn.2.tree.declaresVariable name = false) :
    ∀ row ∈ rn.1.revised (trees rn.2) (x.changes comments rn.2),
      row.2.declaresVariable name = false := by
  have hpart : ∀ t : Tree, t.declaresVariable name = true → t.isPart = true :=
    fun _ => Tree.isPart_of_declaresVariable
  intro row hrow
  cases hg : x.changes comments rn.2 with
  | none =>
    rw [hg, Row.revised, List.mem_singleton] at hrow
    have hlast : row.2 = rn.1.last.tree := congrArg Prod.snd hrow
    rw [hlast, Module.last_tree hrn]
    exact hno
  | some change =>
    cases change with
    | goes =>
      rw [hg] at hrow
      cases hrow
    | becomes edits es =>
      obtain ⟨-, -, rfl⟩ := ExportedClass.changes_becomes hg
      rw [hg] at hrow
      have hlast : row.2 ∈ rn.1.docs.map (·.tree) ++ trees rn.2 := by
        rw [← flatRows_revised]
        exact last_mem_flatRows hrow
      -- What is new there is a comment or the class.
      rcases List.mem_append.mp hlast with hdoc | hnew
      · exact lacks_of_not_part hpart (m.docs_not_parts hrn hdoc)
      rcases ExportedClass.mem_declaredTrees hcomplete (htrees rn hrn _ _ hg) _ hnew with
        hcomment | hclass
      · exact lacks_of_not_part hpart hcomment
      · rw [Tree.declaresVariable, (Kind.isClass_cases hclass.declared).2.1, Bool.false_and]

theorem Variable.declarator_below {name : String} {v : Variable}
    (h : m.variableNamed? name = some v) : v.statement.Below v.declarator := by
  obtain ⟨-, hdeclaration, -, hmem, -⟩ := Module.variableNamed?_spec h
  exact (hdeclaration ▸ Node.below_unwrap v.statement).child (Node.mem_children_of_mem_partsOf hmem)

/-- A variable starts within its statement. -/
theorem Variable.start_within (hm : m.Readable) {name : String} {v : Variable}
    (h : m.variableNamed? name = some v) :
    v.statement.start ≤ v.declarator.start ∧ v.declarator.start < v.statement.stop := by
  have hbelow := Variable.declarator_below h
  have hwide := m.start_lt_stop hm (Module.variableNamed?_spec h).1 hbelow
  obtain ⟨before, after, hholds⟩ := hbelow.holds
  have hstart := hholds.2
  have hstop := hholds.stop_eq
  have hend := v.statement.stop_eq
  rw [hholds.1] at hend
  simp only [size_append] at hend hstop
  omega

/-- Variables of statements that are spelled alike stand behind the same text of these. -/
theorem Variable.inner_eq {name : String} {v v' : Variable}
    (h : m.variableNamed? name = some v) (h' : m'.variableNamed? name = some v')
    (hstmt : v'.statement.tree = v.statement.tree) {inner rest inner' rest' : List Char}
    (hspell : v.statement.tree.spell = inner ++ rest)
    (hspell' : v.statement.tree.spell = inner' ++ rest')
    (hplace : v.declarator.start = v.statement.start + size inner)
    (hplace' : v'.declarator.start = v'.statement.start + size inner') : inner' = inner := by
  obtain ⟨k, _, _, _, _, hk, -, -, -, hd, -⟩ := Variable.shifted h h' hstmt
  have hsize : size inner' = size inner := by
    have := hk.2
    have := hd.2
    omega
  have hcut := cutAt_size inner' rest'
  rw [← hspell', hspell, hsize, cutAt_size] at hcut
  exact (congrArg Prod.fst hcut).symm

/-- The first batch leaves a variable as it is.  The variable moves down by as many
    lines as the edits above it add. -/
theorem ExportedClass.In.variable_moves (hm : m.Readable) (hx : x.In m)
    (hcomplete : CompleteComments comments) {given : List Edit}
    (hgiven : given.Perm ((if x.exporting.start ≠ x.holding.start then
      [m.removeStatement x.exporting] else []) ++ x.edits comments))
    (happly : m.applyEdits given = .ok m') (hlocal : m'.RereadsAs (m.expect (x.changes comments)))
    {name : String} {v v' : Variable} (h : m.variableNamed? name = some v)
    (h' : m'.variableNamed? name = some v') :
    v'.statement.tree = v.statement.tree ∧ v'.declarator.tree = v.declarator.tree ∧
      (m'.lineOf v'.declarator : Int) =
        m.lineOf v.declarator + m.linesAddedBefore given v.declarator.start := by
  have hpart : ∀ t : Tree, t.declaresVariable name = true → t.isPart = true :=
    fun _ => Tree.isPart_of_declaresVariable
  have hfits : ∀ rn ∈ m.located, ∀ change, x.changes comments rn.2 = some change →
      change.FitsAt rn.2 := ExportedClass.changes_fit hm hx
  have hrising : Rising (m.editsOf (x.changes comments)) := ExportedClass.changes_rising hm hx
  have hperm := ExportedClass.perm_changes hm hx hgiven
  obtain ⟨hm', -⟩ := m.nodes_changes hm hfits hrising hperm happly hlocal
  obtain ⟨l, r, l', hsplit, hdeclares, hl⟩ :=
    m.located_first hpart (Module.variableNamed?_first h)
  obtain ⟨hholding, hexporting⟩ := hx.variable_apart hm h
  have hstays : x.changes comments v.statement = none := by
    rw [ExportedClass.changes, Module.changeBoth, if_neg hholding, if_neg hexporting]
  obtain ⟨trees, A, gap, B, htrees, hrows, hA, hcount⟩ :=
    m.row_kept hm hfits hrising hperm happly hlocal hsplit hstays
  -- No row above the variable declares one of its name, before the batch or after it.
  have hlacks : ∀ a ∈ A, a.last.tree.declaresVariable name = false := by
    intro a ha
    have hmem : a.trees ∈ A.map Row.trees := List.mem_map_of_mem ha
    rw [hA, List.mem_flatMap] at hmem
    obtain ⟨rn, hrn, hmem⟩ := hmem
    have hlocated : rn ∈ m.located := by
      rw [hsplit]
      exact List.mem_append_left _ hrn
    exact ExportedClass.lacks_variable hcomplete htrees hlocated (hl rn hrn) _ hmem
  have hnode := (m.located_split hsplit).2
  have hlast : r.last.tree = v.statement.tree := by
    rw [hnode]
    rfl
  have hnode' : v'.statement = m'.nodeAt A ⟨r.docs, ⟨r.last.tree, gap⟩⟩ :=
    m'.nodeAt_of_first hpart (Module.variableNamed?_first h') hrows hlacks (by rw [hlast, hdeclares])
  have hstmt : v'.statement.tree = v.statement.tree := by
    rw [hnode', ← hlast]
    rfl
  obtain ⟨inner, rest, hspell, hplace, hline⟩ :=
    m.lineOf_below hm (m.located_split hsplit).1 (hnode ▸ Variable.declarator_below h)
  obtain ⟨inner', rest', hspell', hplace', hline'⟩ :=
    m'.lineOf_below hm' hrows (hnode' ▸ Variable.declarator_below h')
  rw [← hnode] at hplace
  rw [← hnode'] at hplace'
  -- The statement is spelled as before, so the variable stands as far into it.
  have hinner : inner' = inner :=
    Variable.inner_eq h h' hstmt (hlast ▸ hspell) (hlast ▸ hspell') hplace hplace'
  obtain ⟨hle, hlt⟩ := Variable.start_within hm h
  have hcount := hcount v.declarator.start hle hlt
  obtain ⟨_, _, _, _, _, -, -, -, -, hd, -⟩ := Variable.shifted h h' hstmt
  refine ⟨hstmt, hd.1, ?_⟩
  rw [hline, hline', hinner]
  dsimp only
  omega

/-! ### The whole pass -/

/-- With rollback, a failure that describes a node describes the offending node of the
    module that is left, which is the module before the pass: its type, the head of its
    text, and its line, moved by the lines that the first batch has added above it. -/
theorem process_points (comments : Option Comments) (settings : Settings) {s s' : Session}
    {f : Failure} {rolledBack : Bool} {d : String}
    (hlocal : f.word = "missing_helper_member" →
      CompleteComments comments ∧ ReadsNormalized comments settings s.module)
    (hrollback : settings.rollbackOnFailure = true)
    (hfailure : process comments settings s = (.ok (.failure f rolledBack), s'))
    (hnode : f.node = some d) :
    s'.module = s.module ∧ ∃ (n : Node) (line : Nat) (head : String),
      Offends s'.module settings f n ∧ d = n.describedAs line head ∧ Quotes 80 n.text head ∧
      (line : Int) = s'.module.lineOf n +
        s'.module.linesAddedBefore (s'.module.firstBatch comments settings) n.start := by
  have hends := process_ends comments settings s
  rw [hfailure] at hends
  generalize hmodule : s'.module = after at hends ⊢
  have hquotes : ∀ n : Node, Quotes 80 n.text (headLine 80 n.text) :=
    fun n => quotes_headLine 80 (by decide) n.text
  cases hends with
  | unexported hplan =>
    obtain ⟨n, hn, rfl⟩ := mention_of_normalizeExport hplan hnode
    refine ⟨rfl, n, _, _, hn, rfl, hquotes n, ?_⟩
    have hbatch : s.module.firstBatch comments settings = [] := by rw [Module.firstBatch, hplan]
    rw [hbatch, Module.linesAddedBefore_of_after _ (List.forall_mem_nil _), Int.add_zero]
  | @unextracted plan m₁ _ hplan happly hextract =>
    rw [if_pos hrollback]
    -- The helper was looked for after the first batch, which moved it by whole lines.
    have hfirst := normalizeExport_ends s.module comments settings
    rw [hplan] at hfirst
    have hsecond := extractTypes_ends m₁ settings
    rw [hextract] at hsecond
    cases hsecond with
    | noHelper => cases hnode
    | @noMember v₁ hhelper kind hkind =>
    obtain ⟨hcomplete, hreads⟩ := hlocal rfl
    cases hfirst with
    | @plans x hx hcount _ hresult hedits =>
    have hm := s.module.readable_of_statement hx.exporting_mem
      (Or.inr (List.find?_some hx.exporting))
    have hreread := hreads x plan m₁ hx hplan happly
    obtain ⟨hnone, hmembers⟩ := extraction_diagnosed hm hx hcomplete hedits happly hreread
      settings.helperVariable
    obtain ⟨v, hv⟩ : ∃ v, s.module.variableNamed? settings.helperVariable = some v := by
      refine Option.ne_none_iff_exists'.mp fun h => ?_
      rw [hnone.mpr h] at hhelper
      cases hhelper
    obtain ⟨-, htree, hline⟩ := hx.variable_moves hm hcomplete hedits happly hreread hv hhelper
    rw [Members.firstMissing?_congr (hmembers v₁ v hhelper hv)] at hkind
    obtain rfl := Option.some.inj hnode
    refine ⟨rfl, v.declarator, m₁.lineOf v₁.declarator, headLine 80 v.declarator.text,
      .noMember hv hkind _, ?_, hquotes _, ?_⟩
    · show v₁.declarator.describedAs _ (headLine 80 v₁.declarator.text) = _
      rw [Node.describedAs, Node.describedAs, Node.typeName, Node.typeName, Node.text, Node.text,
        htree]
    · rw [hline, Module.firstBatch, hplan]

/-! ### A small module without a member -/

/-- A component whose helper variable comes after the class and lacks a member. -/
def smallFaulty : Module := Module.ofText none
  "export default class A extends B<P,Q,R>{}\nvar h:{props:{}}"

/-- Whether a pass fails in the second stage and describes a node. -/
def checkMention (comments : Option Comments) (settings : Settings) (m : Module) : Bool :=
  afterStep (normalizeExport m comments settings) fun normalization =>
  afterStep (m.applyEdits normalization.edits) fun normalized =>
  match extractTypes normalized settings with
  | .ok _ => false
  | .error f => f.node.isSome

theorem fails_of_checkMention {s : Session} (h : checkMention comments settings s.module = true) :
    ∃ f s' d, process comments settings s = (.ok (.failure f settings.rollbackOnFailure), s') ∧
      f.node = some d := by
  unfold checkMention at h
  obtain ⟨normalization, hnormalizes, h⟩ := exists_of_afterStep h
  obtain ⟨normalized, htoNormalized, h⟩ := exists_of_afterStep h
  have hends := process_ends comments settings s
  generalize hresult : process comments settings s = result at hends
  obtain ⟨outcome, s'⟩ := result
  generalize s'.module = after at hends
  -- The check has seen the first stage complete and the second one fail.
  cases hends with
  | unexported hplan =>
    rw [hnormalizes] at hplan
    cases hplan
  | unextracted hplan happly hextract =>
    obtain rfl := Except.ok.inj (hnormalizes.symm.trans hplan)
    obtain rfl := Except.ok.inj (htoNormalized.symm.trans happly)
    rw [hextract] at h
    obtain ⟨d, hd⟩ := Option.isSome_iff_exists.mp h
    exact ⟨_, _, d, rfl, hd⟩
  | refused hbatch happly => exact absurd happly (hbatch.not_refused _)
  | completed c =>
    obtain rfl := Except.ok.inj (hnormalizes.symm.trans c.normalizes)
    obtain rfl := Except.ok.inj (htoNormalized.symm.trans c.toNormalized)
    rw [c.extracts] at h
    cases h

theorem checks_smallFaulty : (checkNormalized smallComments smallSettings smallFaulty &&
    checkMention smallComments smallSettings smallFaulty) = true := by
  decide +kernel

/-- The helper of the small component is described below the description of the
    class. -/
theorem process_points_small : ∃ f s' d,
    process smallComments smallSettings ⟨smallFaulty, []⟩ = (.ok (.failure f true), s') ∧
    f.node = some d ∧
    s'.module = smallFaulty ∧ ∃ (n : Node) (line : Nat) (head : String),
      Offends s'.module smallSettings f n ∧ d = n.describedAs line head ∧
      Quotes 80 n.text head ∧
      (line : Int) = s'.module.lineOf n +
        s'.module.linesAddedBefore (s'.module.firstBatch smallComments smallSettings) n.start := by
  obtain ⟨hreads, hmention⟩ := Bool.and_eq_true_iff.mp checks_smallFaulty
  obtain ⟨f, s', d, hfailure, hnode⟩ := fails_of_checkMention (s := ⟨smallFaulty, []⟩) hmention
  have hpoints := process_points smallComments smallSettings (s := ⟨smallFaulty, []⟩)
    (fun _ => ⟨completeComments_small, readsNormalized_of_check hreads⟩) rfl hfailure hnode
  exact ⟨f, s', d, hfailure, hnode, hpoints⟩

end ComponentDecl
