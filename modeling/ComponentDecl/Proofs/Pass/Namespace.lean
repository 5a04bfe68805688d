import ComponentDecl.Proofs.Module.Inserted
import ComponentDecl.Proofs.Pass.Safety
import ComponentDecl.Proofs.Text.JoinedLines

/-! # The batches on the namespace

    The third batch puts the namespace with its doc comment after the statement
    of the class.  The fourth one puts doc comments into the type of the
    namespace's first alias, and changes nothing else there.

    Key theorems:
    - `joinChange_fits`: the third batch as a change of the class statement
    - `documentChange_fits`, `documentedType_inserted`: the fourth batch
-/

namespace ComponentDecl

open Syntax Text

variable {m : Module} {comments : Option Comments} {settings : Settings}

/-! ### The text of a namespace -/

namespace Namespace

/-- The doc comment above the namespace of a class. -/
def docText (className : String) : List Char :=
  (DocComment.render (description className) "").toList

/-- The namespace of a class without the doc comment above it. -/
def bareText (className : String) (types : CapturedTypes) (indent : String) : List Char :=
  (joinLines (["declare namespace " ++ className ++ " \x7b"]
    ++ AliasKind.all.flatMap (aliasLines className types indent) ++ ["\x7d"])).toList

theorem declaration_toList (className : String) (types : CapturedTypes) (indent : String) :
    (declaration className types indent).toList =
      docText className ++ '\n' :: bareText className types indent :=
  joinLines_cons _ _ _

end Namespace

/-! ### Trees of namespaces -/

namespace Syntax.Tree

/-- The constructs in the body of a declaration. -/
def bodyParts (t : Tree) : List Tree :=
  match t.child? .body with
  | some body => body.parts
  | none => []

/-- The name and the type's text of an exported type alias. -/
def exportedAlias? (t : Tree) : Option (String × String) :=
  if t.kind = .exportStatement && t.unwrap.kind = .typeAliasDeclaration then
    t.unwrap.name?.bind fun name => (t.unwrap.child? .value).map fun value => (name, value.text)
  else none

end Syntax.Tree

/-- Holds of a tree that declares the namespace of a class with nothing but the
    three aliases in their order, each for the given type. -/
structure DeclaresAliases (className : String) (types : AliasKind → String) (t : Tree) :
    Prop where
  kind : t.kind = .ambientDeclaration
  declared : t.unwrap.kind.isNamespace = true
  name : t.unwrap.name? = some className
  aliases : t.unwrap.bodyParts.map Tree.exportedAlias? =
    AliasKind.all.map fun k => some (k.name, types k)

instance (className : String) (types : AliasKind → String) :
    DecidablePred (DeclaresAliases className types) := fun t =>
  decidable_of_iff (t.kind = .ambientDeclaration ∧ t.unwrap.kind.isNamespace = true ∧
      t.unwrap.name? = some className ∧ t.unwrap.bodyParts.map Tree.exportedAlias? =
        AliasKind.all.map fun k => some (k.name, types k))
    ⟨fun h => ⟨h.1, h.2.1, h.2.2.1, h.2.2.2⟩, fun h => ⟨h.kind, h.declared, h.name, h.aliases⟩⟩

theorem DeclaresAliases.declares_namespace {className : String} {types : AliasKind → String}
    {t : Tree} (h : DeclaresAliases className types t) :
    t.declares Kind.isNamespace className = true := by
  rw [Tree.declares, h.declared, h.name, beq_self_eq_true]
  rfl

/-! ### The third batch -/

/-- The doc comment above a namespace, read as it is. -/
def Expected.namespaceDoc (className : String) : Expected :=
  .made (Namespace.docText className) fun t =>
    decide (t = .token none .comment (Namespace.docText className))

/-- What becomes of the class statement in the third batch: the statement, and
    after it the namespace with its doc comment. -/
def joinChange (className : String) (types : CapturedTypes) (settings : Settings) (stmt : Node) :
    Change :=
  let indent := String.ofList (List.replicate settings.indentWidth ' ')
  .becomes [Edit.insertAfter stmt (Namespace.declaration className types indent)]
    [.same stmt.tree, .namespaceDoc className,
      .made (Namespace.bareText className types indent) (DeclaresAliases className types.get ·)]

theorem joinChange_fits (className : String) (types : CapturedTypes) (settings : Settings)
    (stmt : Node) : (joinChange className types settings stmt).FitsAt stmt := by
  refine ⟨?_, [.same stmt.tree, .namespaceDoc className], _, rfl, fun t ht => ?_⟩
  · have hwoven := weave_single stmt.start stmt.tree.spell [] [] ("\n" ++ Namespace.declaration
      className types (String.ofList (List.replicate settings.indentWidth ' ')))
    rw [← Node.stop_eq, size_nil, Nat.add_zero, List.append_nil, List.append_nil] at hwoven
    rw [String.toList_append, Namespace.declaration_toList] at hwoven
    simpa [Expected.text, Expected.namespaceDoc, List.intercalate, Edit.insertAfter] using hwoven
  · rw [Tree.isDocComment, (decide_eq_true_eq.mp ht.2).kind]
    rfl

/-- The third batch is a change of the statement that holds the class. -/
theorem buildNamespace_edits {className : String} {types : CapturedTypes} {stmt : Node}
    (h : m.statements.find? (·.tree.declares Kind.isClass className) = some stmt) :
    (buildNamespace m className types settings).edits =
      m.changeEdits stmt (some (joinChange className types settings stmt)) := by
  have hclass : m.classNamed? className = some stmt.unwrap := by
    rw [Module.classNamed?, m.declarationOfKind?_eq, h]
    rfl
  have htop : stmt.unwrap.topLevel = stmt :=
    (Node.below_unwrap stmt).topLevel (m.above_of_statement (List.mem_of_find?_eq_some h))
  rw [buildNamespace, hclass]
  dsimp only
  rw [htop]
  rfl

/-- The trees that are read in the place of the class statement. -/
theorem reads_joinChange {className : String} {types : CapturedTypes} {t : Tree} {indent : String}
    {ts : List Tree} (h : List.Forall₂ Expected.Reads [.same t, .namespaceDoc className,
      .made (Namespace.bareText className types indent) (DeclaresAliases className types.get ·)]
      ts) :
    ∃ N, ts = [t, .token none .comment (Namespace.docText className), N] ∧
      N.spell = Namespace.bareText className types indent ∧
      DeclaresAliases className types.get N := by
  cases h with
  | cons ht h =>
  cases h with
  | cons hdoc h =>
  cases h with
  | @cons _ N _ _ hN h =>
  cases h
  refine ⟨N, ?_, hN.1, decide_eq_true_eq.mp hN.2⟩
  rw [show _ = t from ht, show _ = Tree.token none .comment _ from decide_eq_true_eq.mp hdoc.2]

/-! ### The fourth batch -/

/-- The characters of the namespace's statement after the fourth batch. -/
def Module.documentedStatement (m : Module) (docs : Comments) (stmt type : Node) : List Char :=
  woven stmt.start (m.documentEdits docs type) stmt.tree.spell

/-- The characters of the first alias's type after the fourth batch. -/
def Module.documentedType (m : Module) (docs : Comments) (type : Node) : List Char :=
  woven type.start (m.documentEdits docs type) type.tree.spell

/-- The exported aliases among constructs once the first alias of the props has
    another type. -/
def documentedAliases (type : String) : List Tree → List (Option (String × String))
  | [] => []
  | t :: ts =>
    if t.declares (· == .typeAliasDeclaration) AliasKind.props.name then
      t.exportedAlias?.map (fun a => (a.1, type)) :: ts.map Tree.exportedAlias?
    else t.exportedAlias? :: documentedAliases type ts

/-- Holds of a tree that differs from a namespace in the type of the first alias of
    the props only. -/
structure Documents (type : String) (former t : Tree) : Prop where
  kind : t.kind = former.kind
  exports : t.isDefaultExport = former.isDefaultExport
  declared : t.unwrap.kind = former.unwrap.kind
  name : t.unwrap.name? = former.unwrap.name?
  aliases : t.unwrap.bodyParts.map Tree.exportedAlias? =
    documentedAliases type former.unwrap.bodyParts

instance (type : String) (former : Tree) : DecidablePred (Documents type former) := fun t =>
  decidable_of_iff (t.kind = former.kind ∧ t.isDefaultExport = former.isDefaultExport ∧
      t.unwrap.kind = former.unwrap.kind ∧ t.unwrap.name? = former.unwrap.name? ∧
      t.unwrap.bodyParts.map Tree.exportedAlias? =
        documentedAliases type former.unwrap.bodyParts)
    ⟨fun ⟨h₁, h₂, h₃, h₄, h₅⟩ => ⟨h₁, h₂, h₃, h₄, h₅⟩,
      fun ⟨h₁, h₂, h₃, h₄, h₅⟩ => ⟨h₁, h₂, h₃, h₄, h₅⟩⟩

/-- What becomes of the namespace's statement in the fourth batch. -/
def documentChange (m : Module) (docs : Comments) (stmt type : Node) : Change :=
  .becomes (m.documentEdits docs type) [.made (m.documentedStatement docs stmt type)
    (Documents (String.ofList (m.documentedType docs type)) stmt.tree ·)]

/-- The blocks that the fourth batch puts in, from left to right. -/
def docBlocks (docs : Comments) (type : Node) : List (List Char) :=
  (documentedProps docs type).map fun c => ("\n" ++ c.2 ++ "\n").toList

/-- Holds of a block that is the comment of a prop on lines of its own. -/
def IsDocBlock (comments : Option Comments) (block : List Char) : Prop :=
  ∃ docs prop, comments = some docs ∧ prop ∈ docs.props ∧
    block = ("\n" ++ prop.2 ++ "\n").toList

theorem isDocBlock_of_mem {docs : Comments} {type : Node} {block : List Char}
    (h : block ∈ docBlocks docs type) : IsDocBlock (some docs) block := by
  obtain ⟨c, hc, rfl⟩ := List.mem_map.mp h
  obtain ⟨signature, -, hdoc⟩ := List.mem_filterMap.mp hc
  obtain ⟨doc, hprop, rfl⟩ := Option.map_eq_some_iff.mp hdoc
  obtain ⟨prop, hfind, rfl⟩ := Option.map_eq_some_iff.mp hprop
  exact ⟨docs, prop, rfl, List.mem_of_find?_eq_some hfind, rfl⟩

section

variable {ns : String} {stmt type : Node}

/-- The text of an edit is the comment on a line of its own in front of what it covers. -/
theorem Module.documentedText_toList (h : m.PropsType ns stmt type) {docs : Comments}
    {c : Node × String} (hc : c ∈ documentedProps docs type) {x y z : List Char}
    (hsource : m.source = encodeChars (x ++ (y ++ z)))
    (hstart : (fullStartFrom type.start c.1.place.before : Int) = size x)
    (hstop : (c.1.stop : Int) = size (x ++ y)) :
    (m.documentedText c.1 c.2).toList = ("\n" ++ c.2 ++ "\n").toList ++ y := by
  have hfull : m.fullText c.1 = .ok (String.ofList y) := by
    rw [← fullStart_eq (Node.mem_children_of_documented hc) h.above_ne] at hstart
    rw [Module.fullText, Module.slice, hsource, hstart, hstop, slice_encodeChars,
      decode_encodeChars]
  rw [Module.documentedText, hfull]
  simp [String.toList_append]

/-- The fourth batch puts comments into the first alias's type. -/
theorem documentedType_inserted (hm : m.Readable) (h : m.PropsType ns stmt type)
    (docs : Comments) :
    Inserted (docBlocks docs type) type.tree.spell (m.documentedType docs type) := by
  obtain ⟨out, hout, hcovers⟩ := m.weave_documented hm h docs
  have hroot : m.root.Below type :=
    (Node.Below.refl.child (Node.mem_children_of_mem_parts h.mem_statements)).trans h.below
  obtain ⟨before, after, hspell, hstart⟩ := hroot.holds
  have hbefore : size before = type.start := by
    rw [hstart]
    exact (Nat.zero_add _).symm
  rw [Module.documentedType, ← hout.eq_woven]
  unfold Module.documentEdits fullReplacements at hout hcovers
  rw [List.map_map] at hout hcovers
  refine hout.inserted hbefore after fun c hc x y z hsplit hx hy => ?_
  have hcover := hcovers _ (List.mem_map_of_mem hc)
  rw [hx, hy] at hcover
  have hsource : m.source = encodeChars (x ++ (y ++ z)) := by
    rw [← hsplit, ← hspell]
    exact hm
  refine ⟨m.documentedText_toList h hc hsource hx hy, ?_⟩
  rintro rfl
  simp at hcover

/-- Nothing else of the namespace's statement changes. -/
theorem documentedStatement_inserted (hm : m.Readable) (h : m.PropsType ns stmt type)
    (docs : Comments) :
    Inserted (docBlocks docs type) stmt.tree.spell (m.documentedStatement docs stmt type) := by
  have htype := documentedType_inserted hm h docs
  obtain ⟨out, hout, -⟩ := m.weave_documented hm h docs
  obtain ⟨before, after, hholds⟩ := h.below.holds
  have hstmt := (hout.hold hholds).eq_woven
  rw [Module.documentedStatement, ← hstmt, hholds.1]
  rw [Module.documentedType, ← hout.eq_woven] at htype
  have := (htype.append (.none after)).prepend before
  simpa using this

theorem documentChange_fits (hm : m.Readable) (h : m.PropsType ns stmt type) (docs : Comments) :
    (documentChange m docs stmt type).FitsAt stmt := by
  obtain ⟨out, hout, -⟩ := m.weave_documented hm h docs
  obtain ⟨before, after, hholds⟩ := h.below.holds
  have hstmt := hout.hold hholds
  refine ⟨?_, [], _, rfl, fun t ht => ?_⟩
  · rw [hstmt.eq_woven] at hstmt
    simpa [Expected.text, Module.documentedStatement] using hstmt
  · have hpart : stmt.tree.isPart = true := (List.mem_filter.mp h.mem_statements).2
    have hkind : t.kind ≠ .comment := by
      rw [(decide_eq_true_eq.mp ht.2).kind]
      intro hcomment
      rw [Tree.isPart, hcomment] at hpart
      cases hpart
    rw [Tree.isDocComment, beq_eq_false_iff_ne.mpr hkind, Bool.false_and]

end

/-! ### Types of aliases -/

/-- The types of the aliases with another type for the props. -/
def withProps (type : String) (types : AliasKind → String) : AliasKind → String
  | .props => type
  | kind => types kind

/-- What the first construct in the body of such a namespace is. -/
theorem DeclaresAliases.body {className : String} {types : AliasKind → String} {t : Tree}
    (h : DeclaresAliases className types t) : ∃ a b c, t.unwrap.bodyParts = [a, b, c] ∧
      a.exportedAlias? = some (AliasKind.props.name, types .props) ∧
      b.exportedAlias? = some (AliasKind.events.name, types .events) ∧
      c.exportedAlias? = some (AliasKind.slots.name, types .slots) := by
  obtain ⟨a, rest, hbody, ha, hrest⟩ := List.map_eq_cons_iff.mp h.aliases
  obtain ⟨b, rest, rfl, hb, hrest⟩ := List.map_eq_cons_iff.mp hrest
  obtain ⟨c, rest, rfl, hc, hrest⟩ := List.map_eq_cons_iff.mp hrest
  obtain rfl := List.map_eq_nil_iff.mp hrest
  exact ⟨a, b, c, hbody, ha, hb, hc⟩

/-- An exported alias declares a type alias. -/
theorem Syntax.Tree.declares_of_exportedAlias? {t : Tree} {name type : String}
    (h : t.exportedAlias? = some (name, type)) :
    t.unwrap.kind = .typeAliasDeclaration ∧ t.unwrap.name? = some name ∧
      (t.unwrap.child? .value).map (·.text) = some type := by
  unfold exportedAlias? at h
  split at h
  · next hkind =>
    rw [Bool.and_eq_true, decide_eq_true_eq, decide_eq_true_eq] at hkind
    obtain ⟨n, hname, hvalue⟩ := Option.bind_eq_some_iff.mp h
    obtain ⟨value, hchild, hpair⟩ := Option.map_eq_some_iff.mp hvalue
    obtain ⟨rfl, rfl⟩ := Prod.mk.inj hpair
    rw [hchild]
    exact ⟨hkind.2, hname, rfl⟩
  · cases h

/-- A namespace that has got comments has the same aliases, the first one with the
    comments in its type. -/
theorem DeclaresAliases.documents {className : String} {types : AliasKind → String}
    {type : String} {t t' : Tree} (h : DeclaresAliases className types t)
    (ht' : Documents type t t') : DeclaresAliases className (withProps type types) t' := by
  obtain ⟨a, b, c, hbody, ha, hb, hc⟩ := h.body
  obtain ⟨hkind, hname, -⟩ := Tree.declares_of_exportedAlias? ha
  have hfirst : a.declares (· == .typeAliasDeclaration) AliasKind.props.name = true := by
    rw [Tree.declares, hkind, hname]
    rfl
  refine ⟨ht'.kind.trans h.kind, ?_, ht'.name.trans h.name, ?_⟩
  · rw [ht'.declared]
    exact h.declared
  · rw [ht'.aliases, hbody, documentedAliases, if_pos hfirst, ha, List.map_cons, List.map_cons, hb, hc]
    rfl

/-- The type of the first alias in such a namespace. -/
theorem DeclaresAliases.propsType {className : String} {types : AliasKind → String}
    {ns : String} {stmt type : Node} (h : DeclaresAliases className types stmt.tree)
    (htype : m.PropsType ns stmt type) : type.text = types .props := by
  obtain ⟨a, b, c, hbody, ha, -⟩ := h.body
  obtain ⟨hkind, hname, hvalue⟩ := Tree.declares_of_exportedAlias? ha
  have hof := htype.ofAlias
  rw [Tree.bodyParts, ← Node.unwrap_tree, ← Node.child?_tree] at hbody
  rw [Node.typeAlias?] at hof
  cases hchild : stmt.unwrap.child? .body with
  | none =>
    rw [hchild] at hof
    cases hof
  | some body =>
    rw [hchild, Option.map_some] at hbody
    rw [hchild] at hof
    dsimp only at hbody hof
    rw [← Node.parts_tree] at hbody
    obtain ⟨first, rest, hparts, rfl, -⟩ := List.map_eq_cons_iff.mp hbody
    have hfirst : (decide (first.unwrap.kind = .typeAliasDeclaration) &&
        first.unwrap.name? == some AliasKind.props.name) = true := by
      rw [Node.kind, Node.name?_tree, Node.unwrap_tree, hkind, hname]
      rfl
    rw [hparts, List.findSome?_cons, if_pos hfirst, Option.bind_some] at hof
    rw [← Node.unwrap_tree, ← Node.child?_tree, hof] at hvalue
    exact Option.some.inj hvalue

theorem withProps_self (types : CapturedTypes) : withProps types.props types.get = types.get := by
  funext kind
  cases kind <;> rfl

/-- Holds of the namespace of a class as it is put into a module. -/
structure NewNamespace (settings : Settings) (className : String) (types : CapturedTypes)
    (N : Tree) : Prop where
  spell : N.spell = Namespace.bareText className types
    (String.ofList (List.replicate settings.indentWidth ' '))
  declares : DeclaresAliases className types.get N

/-- Holds of the namespace of a class in a module that a pass has made: it declares
    the captured types, with comments put into that of the props. -/
def DocumentedNamespace (comments : Option Comments) (settings : Settings) (className : String)
    (types : CapturedTypes) (N : Tree) : Prop :=
  ∃ blocks type, (∀ block ∈ blocks, IsDocBlock comments block) ∧
    Inserted blocks (Namespace.bareText className types
      (String.ofList (List.replicate settings.indentWidth ' '))) N.spell ∧
    Inserted blocks types.props.toList type.toList ∧
    DeclaresAliases className (withProps type types.get) N

namespace NewNamespace

variable {className ns : String} {types : CapturedTypes} {N : Tree}

/-- A namespace may stay without comments. -/
theorem documented (h : NewNamespace settings className types N)
    (comments : Option Comments) : DocumentedNamespace comments settings className types N := by
  refine ⟨[], types.props, List.forall_mem_nil _, ?_, Inserted.none _, ?_⟩
  · rw [h.spell]
    exact Inserted.none _
  · rw [withProps_self]
    exact h.declares

/-- The fourth batch puts comments into the namespace. -/
theorem documents {stmt type : Node} (h : NewNamespace settings className types stmt.tree)
    (hm : m.Readable) (htype : m.PropsType ns stmt type) {docs : Comments}
    (hdocs : comments = some docs) (hspell : N.spell = m.documentedStatement docs stmt type)
    (hN : Documents (String.ofList (m.documentedType docs type)) stmt.tree N) :
    DocumentedNamespace comments settings className types N := by
  subst hdocs
  refine ⟨docBlocks docs type, _, fun _ => isDocBlock_of_mem, ?_, ?_, h.declares.documents hN⟩
  · rw [hspell, ← h.spell]
    exact documentedStatement_inserted hm htype docs
  · have htext : types.props = type.text := (h.declares.propsType htype).symm
    rw [htext, Node.text, Tree.text, String.toList_ofList, String.toList_ofList]
    exact documentedType_inserted hm htype docs

end NewNamespace

end ComponentDecl
