import ComponentDecl.Proofs.Module.Shift
import ComponentDecl.Proofs.Pass.Normalization

/-! # The second batch

    The second stage takes the types of the helper variable and removes it: with
    its statement if it is the only variable there, else with what joins it to
    the next variable or to the one before.

    Key theorems:
    - `extractTypes_ends`: how the second stage ends, and on which modules
    - `Module.removeVariable_spec`: what is removed with a variable
-/

namespace ComponentDecl

open Syntax Text

variable {m : Module} {settings : Settings}

/-! ### What the second stage finds -/

/-- The members of a variable's declared type. -/
def Module.variableMembers (m : Module) (v : Variable) : Members :=
  (((v.declarator.child? .type).bind (·.annotatedType?)).map m.resolveMembers).getD []

/-- The first alias for whose type there is no member. -/
def Members.firstMissing? (ms : Members) : Option AliasKind :=
  AliasKind.all.find? fun kind => (ms.get? kind.member).isNone

theorem Members.get?_tree (ms : Members) (name : String) :
    (ms.get? name).map Node.tree = ((mapEntries Node.tree ms).find? (·.1 == name)).map (·.2) := by
  rw [Members.get?, mapEntries, List.find?_map, Option.map_map, Option.map_map]
  rfl

/-- Which alias has no member, and what type one has, are questions on trees. -/
theorem Members.firstMissing?_congr {ms ms' : Members}
    (h : mapEntries Node.tree ms = mapEntries Node.tree ms') :
    ms.firstMissing? = ms'.firstMissing? := by
  unfold firstMissing?
  congr 1
  funext kind
  rw [← Option.isNone_map (f := Node.tree), ← Option.isNone_map (f := Node.tree) (x := ms'.get? _),
    ms.get?_tree, ms'.get?_tree, h]

theorem Members.typeText_congr {ms ms' : Members}
    (h : mapEntries Node.tree ms = mapEntries Node.tree ms') (name : String) :
    (ms.get? name).map (·.memberTypeText) = (ms'.get? name).map (·.memberTypeText) := by
  have key : ∀ ms : Members, (ms.get? name).map (·.memberTypeText) =
      ((ms.get? name).map Node.tree).map Tree.memberTypeText := by
    intro ms
    cases ms.get? name with
    | none => rfl
    | some n => exact congrArg some (Node.memberTypeText_tree n)
  rw [key ms, key ms', ms.get?_tree, ms'.get?_tree, h]

/-- A variable with one declarator in two modules that declare the same types has
    the same members in both. -/
theorem Module.variableMembers_congr {m m' : Module} {name name' : String} {v v' : Variable}
    (h : m.variableNamed? name = some v) (h' : m'.variableNamed? name' = some v')
    (htypes : ∀ name, (m'.typeNamed? name).map Node.tree = (m.typeNamed? name).map Node.tree)
    (hdeclarator : v'.declarator.tree = v.declarator.tree) :
    mapEntries Node.tree (m'.variableMembers v') = mapEntries Node.tree (m.variableMembers v) := by
  -- The resolution of an annotated type has enough fuel, as the type is part of the module.
  have hheight : ∀ {m : Module} {name : String} {v : Variable} {type : Node},
      m.variableNamed? name = some v →
      (v.declarator.child? .type).bind (·.annotatedType?) = some type →
      type.tree.height ≤ m.tree.height := by
    intro m name v type h htype
    obtain ⟨hstmt, hdeclaration, -, hmem, -⟩ := variableNamed?_spec h
    obtain ⟨clause, hclause, htype⟩ := Option.bind_eq_some_iff.mp htype
    have hbelow : m.root.Below clause := by
      have hstmt : m.root.Below v.statement := .child .refl (Node.mem_children_of_mem_parts hstmt)
      have hdeclared := hstmt.trans (hdeclaration ▸ Node.below_unwrap v.statement)
      exact (hdeclared.child (Node.mem_children_of_mem_partsOf hmem)).child
        (Node.mem_children_of_child? hclause)
    unfold Node.annotatedType? at htype
    split at htype
    · exact (hbelow.child (Node.mem_children_of_mem_parts (List.mem_of_head? htype))).height_le
    · obtain rfl := Option.some.inj htype
      exact hbelow.height_le
  have htree := Node.type?_tree v.declarator
  have htree' := Node.type?_tree v'.declarator
  rw [hdeclarator, ← htree] at htree'
  unfold variableMembers
  cases htype : (v.declarator.child? .type).bind (·.annotatedType?) with
  | none =>
    rw [htype, Option.map_none, Option.map_eq_none_iff] at htree'
    rw [htree']
    rfl
  | some type =>
    rw [htype, Option.map_some] at htree'
    obtain ⟨type', htype', hsame⟩ := Option.map_eq_some_iff.mp htree'
    rw [htype']
    exact resolveMembers_congr htypes hsame (hheight h htype) (hsame ▸ hheight h' htype')

/-- How the second stage ends on a module. -/
inductive ExtractEnds (m : Module) (settings : Settings) :
    Except Failure (Plan CapturedTypes) → Prop where
  | noHelper (h : m.variableNamed? settings.helperVariable = none) :
    ExtractEnds m settings (.error (.missingHelper settings.helperVariable))
  | noMember {v : Variable} (h : m.variableNamed? settings.helperVariable = some v)
    {kind : AliasKind} (hkind : (m.variableMembers v).firstMissing? = some kind) :
    ExtractEnds m settings
      (.error (.missingMember settings.helperVariable kind (m.mention v.declarator)))
  | plans {v : Variable} (h : m.variableNamed? settings.helperVariable = some v)
    (hall : (m.variableMembers v).firstMissing? = none) {plan : Plan CapturedTypes}
    (htypes : ∀ kind, ((m.variableMembers v).get? kind.member).map (·.memberTypeText) =
      some (plan.result.get kind))
    (hedits : plan.edits = [m.removeVariable v]) :
    ExtractEnds m settings (.ok plan)

theorem extractTypes_ends (m : Module) (settings : Settings) :
    ExtractEnds m settings (extractTypes m settings) := by
  unfold extractTypes
  cases hhelper : m.variableNamed? settings.helperVariable with
  | none => exact .noHelper hhelper
  | some v =>
  dsimp only
  -- The three captures stop at the first member that is missing.
  show ExtractEnds m settings (do
    let props ← captureType m settings v (m.variableMembers v) .props
    let events ← captureType m settings v (m.variableMembers v) .events
    let slots ← captureType m settings v (m.variableMembers v) .slots
    return ⟨⟨props, events, slots⟩, [m.removeVariable v], [],
      [.typesExtracted settings.helperVariable]⟩)
  generalize hmembers : m.variableMembers v = members
  have hmissing : ∀ {kind : AliasKind}, members.get? kind.member = none →
      captureType m settings v members kind = .error (.missingMember settings.helperVariable kind
        (m.mention v.declarator)) := fun h => by rw [captureType, h]
  have hfound : ∀ {kind : AliasKind} {s : Node}, members.get? kind.member = some s →
      captureType m settings v members kind = .ok s.memberTypeText :=
    fun h => by rw [captureType, h]
  cases hprops : members.get? AliasKind.props.member with
  | none =>
    rw [hmissing hprops]
    refine @ExtractEnds.noMember _ _ _ hhelper .props ?_
    simp [hmembers, Members.firstMissing?, AliasKind.all, hprops]
  | some props =>
  cases hevents : members.get? AliasKind.events.member with
  | none =>
    rw [hfound hprops, hmissing hevents]
    refine @ExtractEnds.noMember _ _ _ hhelper .events ?_
    simp [hmembers, Members.firstMissing?, AliasKind.all, hprops, hevents]
  | some events =>
  cases hslots : members.get? AliasKind.slots.member with
  | none =>
    rw [hfound hprops, hfound hevents, hmissing hslots]
    refine @ExtractEnds.noMember _ _ _ hhelper .slots ?_
    simp [hmembers, Members.firstMissing?, AliasKind.all, hprops, hevents, hslots]
  | some slots =>
    rw [hfound hprops, hfound hevents, hfound hslots]
    have hall : (m.variableMembers v).firstMissing? = none := by
      simp [hmembers, Members.firstMissing?, AliasKind.all, hprops, hevents, hslots]
    have htypes : ∀ kind : AliasKind, ((m.variableMembers v).get? kind.member).map
        (·.memberTypeText) = some (CapturedTypes.get
          ⟨props.memberTypeText, events.memberTypeText, slots.memberTypeText⟩ kind) := by
      intro kind
      rw [hmembers]
      cases kind with
      | props => simp only [hprops, Option.map_some, CapturedTypes.get]
      | events => simp only [hevents, Option.map_some, CapturedTypes.get]
      | slots => simp only [hslots, Option.map_some, CapturedTypes.get]
    exact .plans hhelper hall htypes rfl

/-! ### What is removed with a variable -/

/-- The edit that removes a variable which stands between others. -/
def Module.removalBetween (m : Module) (v : Variable) (earlier later : List Node) : Edit :=
  match later, earlier.getLast? with
  | next :: _, _ => ⟨v.declarator.start, next.start, ""⟩
  | [], some previous => ⟨previous.stop, v.declarator.stop, ""⟩
  | [], none => m.removeStatement v.statement

theorem Module.removalBetween_next (m : Module) (v : Variable) (earlier later : List Node)
    (next : Node) :
    m.removalBetween v earlier (next :: later) = ⟨v.declarator.start, next.start, ""⟩ := rfl

theorem Module.removalBetween_previous (m : Module) (v : Variable) (earlier : List Node)
    (previous : Node) :
    m.removalBetween v (earlier.concat previous) [] =
      ⟨previous.stop, v.declarator.stop, ""⟩ := by
  unfold removalBetween
  rw [List.concat_eq_append, List.getLast?_concat]

/-- The variables of a declaration start one after the other. -/
theorem Module.declarators_rising (hm : m.Readable) {v : Variable}
    (hstmt : v.statement ∈ m.statements) (hdeclaration : v.declaration = v.statement.unwrap) :
    v.declaration.declarators.Pairwise fun a b => a.start < b.start := by
  have hbelow : v.statement.Below v.declaration := hdeclaration ▸ Node.below_unwrap v.statement
  exact (children_rising (hbelow.full (m.full_statement hm hstmt))).sublist
    (List.filter_sublist.trans List.filter_sublist)

/-- What is removed with a variable, given the variables before and after it. -/
theorem Module.removeVariable_split (hm : m.Readable) {v : Variable}
    (hstmt : v.statement ∈ m.statements) (hdeclaration : v.declaration = v.statement.unwrap)
    {earlier later : List Node}
    (hsplit : v.declaration.declarators = earlier ++ v.declarator :: later) :
    m.removeVariable v = m.removalBetween v earlier later := by
  have hrising := m.declarators_rising hm hstmt hdeclaration
  rw [hsplit] at hrising
  have hne : ∀ d ∈ earlier, (d.start != v.declarator.start) = true := by
    intro d hd
    have := (List.pairwise_append.mp hrising).2.2 d hd v.declarator (by simp)
    simpa using Nat.ne_of_lt this
  have htake : v.declaration.declarators.takeWhile (fun d => d.start != v.declarator.start) =
      earlier := by
    rw [hsplit, List.takeWhile_append_of_pos hne, List.takeWhile_cons_of_neg (by simp),
      List.append_nil]
  have hdrop : v.declaration.declarators.dropWhile (fun d => d.start != v.declarator.start) =
      v.declarator :: later := by
    rw [hsplit, List.dropWhile_append_of_pos hne, List.dropWhile_cons_of_neg (by simp)]
  unfold removeVariable
  dsimp only
  rw [htake, hdrop]
  rfl

/-- A variable is removed with its statement if it is the only one there; else a
    stretch of the statement is removed. -/
theorem Module.removeVariable_spec (hm : m.Readable) {name : String} {v : Variable}
    (h : m.variableNamed? name = some v) :
    v.declaration.declarators.length = 1 ∧
      m.removeVariable v = m.removeStatement v.statement ∨
    v.declaration.declarators.length ≠ 1 ∧
      ∃ out, Weave v.statement.start [m.removeVariable v] v.statement.tree.spell out := by
  obtain ⟨hstmt, hdeclaration, -, hmem, -⟩ := variableNamed?_spec h
  have hbelow : v.statement.Below v.declaration := hdeclaration ▸ Node.below_unwrap v.statement
  have hsub : v.declaration.declarators.Sublist v.declaration.children :=
    List.filter_sublist.trans List.filter_sublist
  obtain ⟨earlier, later, hsplit⟩ := List.append_of_mem hmem
  obtain ⟨before, after, hholds⟩ := hbelow.holds
  -- A declarator goes with the comma after it; the last of several, with the one before it.
  rw [m.removeVariable_split hm hstmt hdeclaration hsplit]
  cases later with
  | cons next later =>
    refine Or.inr ⟨?_, ?_⟩
    · rw [hsplit]
      simp
      omega
    · have hpair : [v.declarator, next].Sublist v.declaration.children := by
        refine List.Sublist.trans ?_ hsub
        rw [hsplit]
        exact (((List.nil_sublist later).cons_cons next).cons_cons v.declarator).trans
          (List.sublist_append_right _ _)
      obtain ⟨out, hout⟩ := weave_until hpair
      exact ⟨_, hout.hold hholds⟩
  | nil =>
    rcases List.eq_nil_or_concat earlier with rfl | ⟨front, previous, rfl⟩
    · exact Or.inl ⟨by rw [hsplit]; rfl, rfl⟩
    · refine Or.inr ⟨?_, ?_⟩
      · rw [hsplit]
        simp
      · have hpair : [previous, v.declarator].Sublist v.declaration.children := by
          refine List.Sublist.trans ?_ hsub
          rw [hsplit, List.concat_eq_append, List.append_assoc]
          exact List.sublist_append_right _ _
        obtain ⟨out, hout⟩ := weave_after hpair
        rw [m.removalBetween_previous]
        exact ⟨_, hout.hold hholds⟩

/-! ### The batch as changes -/

namespace Variable

/-- The names of the variables of the declaration without that of the variable. -/
def otherNames (v : Variable) : List (Option String) :=
  (v.declaration.declarators.map (·.name?)).erase v.declarator.name?

/-- The statement of a variable without that variable. -/
def remainingText (m : Module) (v : Variable) : List Char :=
  woven v.statement.start [m.removeVariable v] v.statement.tree.spell

/-- Holds of a tree that declares the other variables. -/
structure Remains (v : Variable) (t : Tree) : Prop where
  kind : t.kind = v.statement.kind
  exports : t.isDefaultExport = v.statement.isDefaultExport
  declaration : t.unwrap.kind = v.declaration.kind
  declarators : t.unwrap.declarators.map (·.name?) = v.otherNames

instance (v : Variable) : DecidablePred v.Remains := fun t =>
  decidable_of_iff (t.kind = v.statement.kind ∧
      t.isDefaultExport = v.statement.isDefaultExport ∧ t.unwrap.kind = v.declaration.kind ∧
      t.unwrap.declarators.map (·.name?) = v.otherNames)
    ⟨fun ⟨h₁, h₂, h₃, h₄⟩ => ⟨h₁, h₂, h₃, h₄⟩, fun ⟨h₁, h₂, h₃, h₄⟩ => ⟨h₁, h₂, h₃, h₄⟩⟩

/-- What becomes of the statement of a variable in the second batch. -/
def change (m : Module) (v : Variable) : Change :=
  if v.declaration.declarators.length = 1 then .goes
  else .becomes [m.removeVariable v] [.made (v.remainingText m) (v.Remains ·)]

/-- What becomes of the statements of a module in the second batch. -/
def changes (m : Module) (v : Variable) : Node → Option Change :=
  Module.changeAt v.statement (v.change m)

end Variable

theorem Variable.editsOf_changes (hm : m.Readable) {name : String} {v : Variable}
    (h : m.variableNamed? name = some v) :
    m.editsOf (v.changes m) = [m.removeVariable v] := by
  obtain ⟨hstmt, -⟩ := Module.variableNamed?_spec h
  rw [changes, m.editsOf_changeAt hm hstmt, change]
  rcases Module.removeVariable_spec hm h with ⟨hone, hedit⟩ | ⟨hmore, -⟩
  · rw [if_pos hone, hedit]
    rfl
  · rw [if_neg hmore]
    rfl

theorem Variable.Remains.not_docComment {name : String} {v : Variable}
    (h : m.variableNamed? name = some v) {t : Tree} (ht : v.Remains t) :
    t.isDocComment = false := by
  obtain ⟨hstmt, -⟩ := Module.variableNamed?_spec h
  have hpart : v.statement.tree.isPart = true := (List.mem_filter.mp hstmt).2
  have hkind : t.kind ≠ .comment := by
    rw [ht.kind]
    intro hcomment
    rw [Tree.isPart, show v.statement.tree.kind = .comment from hcomment] at hpart
    cases hpart
  rw [Tree.isDocComment, beq_eq_false_iff_ne.mpr hkind, Bool.false_and]

/-- A variable moves with its statement, and so do the variables before it and after
    it. -/
theorem Variable.shifted {m m' : Module} {name : String} {v v' : Variable}
    (h : m.variableNamed? name = some v) (h' : m'.variableNamed? name = some v')
    (hstmt : v'.statement.tree = v.statement.tree) :
    ∃ (k : Int) (earlier later earlier' later' : List Node), v.statement.Shifted k v'.statement ∧
      v.declaration.declarators = earlier ++ v.declarator :: later ∧
      v'.declaration.declarators = earlier' ++ v'.declarator :: later' ∧
      List.Forall₂ (Node.Shifted k) earlier earlier' ∧ v.declarator.Shifted k v'.declarator ∧
      List.Forall₂ (Node.Shifted k) later later' := by
  obtain ⟨-, hdeclaration, -⟩ := Module.variableNamed?_spec h
  obtain ⟨-, hdeclaration', -⟩ := Module.variableNamed?_spec h'
  have hfirst := Module.variableNamed?_declarator h
  have hfirst' := Module.variableNamed?_declarator h'
  obtain ⟨k, hk⟩ : ∃ k : Int, v.statement.Shifted k v'.statement :=
    ⟨(v'.statement.start : Int) - v.statement.start, hstmt, by omega⟩
  have hshift : v.declaration.Shifted k v'.declaration := by
    rw [hdeclaration, hdeclaration']
    exact hk.unwrap
  obtain ⟨hname, earlier, later, hsplit, hearlier⟩ := List.find?_eq_some_iff_append.mp hfirst
  have hall := hshift.declarators
  rw [hsplit] at hall
  obtain ⟨earlier', rest', hrel, hrest, hsplit'⟩ := forall₂_append_left hall
  cases hrest with
  | @cons _ d' _ later' hd hlater =>
  -- The names of the shifted declarators are the same, so the first one of the name is too.
  have hnone : earlier'.find? (·.name? == some name) = none := by
    refine List.find?_eq_none.mpr fun a' ha' => ?_
    obtain ⟨a, ha, haa'⟩ := forall₂_mem_right hrel ha'
    have := hearlier a ha
    rw [Node.name?_tree] at this
    rw [Node.name?_tree, haa'.1]
    simpa using this
  have hnamed : (d'.name? == some name) = true := by
    rw [Node.name?_tree, hd.1, ← Node.name?_tree]
    exact hname
  rw [hsplit', List.find?_append, hnone, Option.none_or, List.find?_cons, hnamed] at hfirst'
  obtain rfl := Option.some.inj hfirst'
  exact ⟨k, earlier, later, earlier', later', hk, hsplit, hsplit', hrel, hd, hlater⟩

/-- What is left of the statement of a variable does not depend on where the
    statement stands. -/
theorem Variable.remainingText_congr {m m' : Module} (hm : m.Readable) (hm' : m'.Readable)
    {name : String} {v v' : Variable} (h : m.variableNamed? name = some v)
    (h' : m'.variableNamed? name = some v') (hstmt : v'.statement.tree = v.statement.tree) :
    v'.declaration.declarators.length = v.declaration.declarators.length ∧
      (v.declaration.declarators.length ≠ 1 → v'.remainingText m' = v.remainingText m) := by
  obtain ⟨k, earlier, later, earlier', later', hk, hsplit, hsplit', hrel, hd, hlater⟩ :=
    Variable.shifted h h' hstmt
  refine ⟨?_, fun hmore => ?_⟩
  · rw [hsplit, hsplit', List.length_append, List.length_append, List.length_cons,
      List.length_cons, hrel.length_eq, hlater.length_eq]
  rcases Module.removeVariable_spec hm h with ⟨hone, -⟩ | ⟨-, out, hout⟩
  · exact absurd hone hmore
  -- The statement stands elsewhere, so the edit is shifted, and a shifted edit makes the same text.
  have hedit : m'.removeVariable v' = (m.removeVariable v).shift k := by
    obtain ⟨hmem, hdeclaration, -⟩ := Module.variableNamed?_spec h
    obtain ⟨hmem', hdeclaration', -⟩ := Module.variableNamed?_spec h'
    rw [m.removeVariable_split hm hmem hdeclaration hsplit,
      m'.removeVariable_split hm' hmem' hdeclaration' hsplit']
    cases hlater with
    | @cons next next' _ _ hnext _ =>
      rw [m.removalBetween_next, m'.removalBetween_next, Edit.shift, hd.2, hnext.2]
    | nil =>
      rcases List.eq_nil_or_concat earlier with rfl | ⟨front, previous, rfl⟩
      · rw [hsplit] at hmore
        exact absurd rfl hmore
      · rw [List.concat_eq_append] at hrel
        obtain ⟨front', last', -, hlast, rfl⟩ := forall₂_append_left hrel
        cases hlast with
        | cons hprevious hnil =>
          cases hnil
          rw [← List.concat_eq_append, m.removalBetween_previous, m'.removalBetween_previous,
            Edit.shift]
          dsimp only
          rw [hprevious.stop, hd.stop]
  have hwoven := woven_shift hout hk.2
  rw [List.map_singleton, ← hedit, ← hstmt] at hwoven
  rw [remainingText, remainingText, ← hwoven.eq_woven, ← hout.eq_woven]

/-- Whether a tree declares the other variables does not depend on where the
    statement stands. -/
theorem Variable.remains_congr {m' : Module} {name : String} {v v' : Variable}
    (h : m.variableNamed? name = some v) (h' : m'.variableNamed? name = some v')
    (hstmt : v'.statement.tree = v.statement.tree) {t : Tree} (ht : v'.Remains t) :
    v.Remains t := by
  obtain ⟨-, hdeclaration, -, -, hname⟩ := Module.variableNamed?_spec h
  obtain ⟨-, hdeclaration', -, -, hname'⟩ := Module.variableNamed?_spec h'
  have htree : v'.declaration.tree = v.declaration.tree := by
    rw [hdeclaration, hdeclaration', Node.unwrap_tree, Node.unwrap_tree, hstmt]
  have hnames : ∀ d : Node, d.declarators.map (·.name?) = d.tree.declarators.map (·.name?) := by
    intro d
    rw [← Node.declarators_tree, List.map_map]
    exact List.map_congr_left fun d _ => d.name?_tree
  have hothers : v'.otherNames = v.otherNames := by
    rw [otherNames, otherNames, hnames, hnames, htree, hname, hname']
  refine ⟨ht.kind.trans (congrArg Tree.kind hstmt), ?_, ht.declaration.trans
    (congrArg Tree.kind htree), ht.declarators.trans hothers⟩
  rw [ht.exports, Node.isDefaultExport_tree, Node.isDefaultExport_tree, hstmt]

theorem Variable.changes_fit (hm : m.Readable) {name : String} {v : Variable}
    (h : m.variableNamed? name = some v) :
    ∀ rn ∈ m.located, ∀ change, v.changes m rn.2 = some change → change.FitsAt rn.2 := by
  intro rn hrn change hchange
  obtain ⟨hstmt, -⟩ := Module.variableNamed?_spec h
  unfold changes Module.changeAt at hchange
  split at hchange
  · next hstart =>
    obtain rfl := Option.some.inj hchange
    rw [m.node_eq_of_start hm hrn hstmt hstart, Variable.change]
    split
    · trivial
    · next hmore =>
      refine ⟨?_, [], _, rfl, fun t ht => (decide_eq_true_eq.mp ht.2).not_docComment h⟩
      rcases Module.removeVariable_spec hm h with ⟨hone, -⟩ | ⟨-, out, hout⟩
      · exact absurd hone hmore
      · have htext : v.remainingText m = out := hout.eq_woven.symm
        simpa [Expected.text, htext] using hout
  · cases hchange

end ComponentDecl
