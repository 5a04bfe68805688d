import ComponentDecl.Proofs.Pass.Shape

/-! # The captured types

    The types of the helper's members are copied into the namespace.  They are
    the types that the module had before the pass, as they are written there, but
    for blank characters at either end: those are cut off, also where they belong
    to a name.  The type of the props has the comments of the props in it.

    Key theorem:
    - `process_captures`: the types of the aliases
-/

namespace ComponentDecl

open Syntax Text

variable {m : Module} {comments : Option Comments} {settings : Settings}

/-! ### Their texts -/

/-- The type of a property as it is written, `any` for a property without one. -/
def Syntax.Node.writtenType (signature : Node) : String :=
  (((signature.child? .type).bind (·.annotatedType?)).map (·.text)).getD "any"

/-- Holds of a text with no blank character at either end. -/
def Text.IsTrim (s : String) : Prop := s ≠ "" ∧ strip s = s

/-- A type is captured as it is written, unless it starts or ends with a blank
    character. -/
theorem memberTypeText_eq_writtenType {signature : Node} (h : IsTrim signature.writtenType) :
    signature.memberTypeText = signature.writtenType := by
  unfold Node.memberTypeText
  unfold Node.writtenType at h ⊢
  cases htype : (signature.child? .type).bind (·.annotatedType?) with
  | none => rfl
  | some type =>
    rw [htype, Option.map_some, Option.getD_some] at h
    dsimp only
    rw [Option.map_some, Option.getD_some, Option.getD_some, h.2,
      if_neg (by rw [String.isEmpty_iff]; exact h.1)]

/-- The type that an alias has for a text, up to comments of props. -/
def Stands (comments : Option Comments) (kind : AliasKind) (text type : String) : Prop :=
  match kind with
  | .props => ∃ blocks, (∀ block ∈ blocks, IsDocBlock comments block) ∧
      Inserted blocks text.toList type.toList
  | .events | .slots => type = text

/-- The aliases of a namespace with comments in the type of its first alias have
    the captured types. -/
theorem stands_withProps {types : CapturedTypes} {blocks : List (List Char)} {type : String}
    (hblocks : ∀ block ∈ blocks, IsDocBlock comments block)
    (hinserted : Inserted blocks types.props.toList type.toList) (kind : AliasKind) :
    Stands comments kind (types.get kind) (withProps type types.get kind) := by
  cases kind with
  | props => exact ⟨blocks, hblocks, hinserted⟩
  | events => rfl
  | slots => rfl

/-- Holds of the module after a pass if the aliases of the new namespace have the
    types of the helper's members before the pass. -/
def Captured (comments : Option Comments) (settings : Settings) (className : String)
    (m m' : Module) : Prop :=
  ∃ (v : Variable) (stmt : Node) (types : AliasKind → String),
    m.variableNamed? settings.helperVariable = some v ∧
    m'.statements.find? (·.tree.declares Kind.isNamespace className) = some stmt ∧
    DeclaresAliases className types stmt.tree ∧
    ∀ kind, ∃ signature, (m.variableMembers v).get? kind.member = some signature ∧
      Stands comments kind signature.memberTypeText (types kind) ∧
      (IsTrim signature.writtenType → Stands comments kind signature.writtenType (types kind))

namespace Course

variable {c : Course comments settings m} {x : ExportedClass} {v : Variable} {home : Node}
  {kept : Node → Tree} {D R N E : Tree}

/-- Where the module has no namespace of the class's name, the new one is the only
    one. -/
theorem Completed.eq_namespace (h : c.Completed x v home kept D R N E) (hw : c.WorksOn x v home)
    (hnone : m.namespaceNamed? c.className = none) {t : Tree} (ht : t ∈ c.exported.tree.nodes)
    (hdeclares : t.declares Kind.isNamespace c.className = true) : t = N := by
  have hlacks : t.declares Kind.isNamespace c.className = false → t = N := by
    intro hno
    rw [hno] at hdeclares
    cases hdeclares
  rw [h.nodes, List.mem_append, List.mem_singleton] at ht
  rcases ht with ht | rfl
  · obtain ⟨rn, hrn, ht⟩ := List.mem_flatMap.mp ht
    rcases mem_block hrn ht with ⟨rfl, -⟩ | ⟨rfl, -⟩ | hleft
    · exact hlacks (Tree.declares_eq_false (Kind.isClass_cases h.declared.1.declared).2.2.2.1 _)
    · rfl
    · refine hlacks (hleft.lacks (fun _ => declaresParts_namespace.isPart_of_declares)
        (fun _ hrn => h.kept_eq hnone hrn)
        (fun hmore => Tree.declares_eq_false (hw.remains_kind (h.remaining hmore).1).2.1 _)
        fun stmt hstmt _ _ _ _ => Module.declares_namespace_eq_false hnone stmt hstmt)
  · exact hlacks (Tree.declares_eq_false (by rw [h.exports.1.plain]; rfl) _)

/-- The first namespace of the name after the pass. -/
theorem Completed.find_namespace (h : c.Completed x v home kept D R N E)
    (hw : c.WorksOn x v home) (hnone : m.namespaceNamed? c.className = none) :
    ∃ stmt, c.exported.statements.find? (·.tree.declares Kind.isNamespace c.className) =
      some stmt ∧ stmt.tree = N := by
  obtain ⟨blocks, type, -, -, -, hN⟩ := h.namespaced
  have hdeclares := hN.declares_namespace
  have hmem : N ∈ c.exported.statements.map Node.tree := by
    rw [Module.statements_tree]
    exact List.mem_filter.mpr
      ⟨h.mem_namespace hw, declaresParts_namespace.isPart_of_declares hdeclares⟩
  obtain ⟨n, hn, rfl⟩ := List.mem_map.mp hmem
  have hsome : (c.exported.statements.find?
      (·.tree.declares Kind.isNamespace c.className)).isSome :=
    List.find?_isSome.mpr ⟨n, hn, hdeclares⟩
  obtain ⟨stmt, hfind⟩ := Option.isSome_iff_exists.mp hsome
  have hstmt : stmt.tree ∈ c.exported.tree.nodes := by
    have hpart := List.mem_map_of_mem (f := Node.tree) (List.mem_of_find?_eq_some hfind)
    rw [Module.statements_tree] at hpart
    exact (List.mem_filter.mp hpart).1
  have hfound := List.find?_some hfind
  exact ⟨stmt, hfind, h.eq_namespace hw hnone hstmt hfound⟩

end Course

/-- A pass that succeeds captures the types of the helper's members. -/
theorem process_captures (comments : Option Comments) (settings : Settings) {s s' : Session}
    {className : String} {documented : Nat} (hcomplete : CompleteComments comments)
    (hlocal : ReadsLocally comments settings s.module)
    (hsuccess : process comments settings s = (.ok (.success className documented), s'))
    (hnamespace : s.module.namespaceNamed? className = none) :
    Captured comments settings className s.module s'.module := by
  obtain ⟨c, rfl, -, hmodule⟩ := course_of_success hsuccess
  obtain ⟨x, v, home, hw⟩ := c.exists_worksOn hcomplete hlocal.first
  obtain ⟨kept, D, R, N, E, hcompleted⟩ := hw.nodes_exported hcomplete hlocal
  obtain ⟨stmt, hfind, rfl⟩ := hcompleted.find_namespace hw hnamespace
  obtain ⟨blocks, type, hblocks, -, hinserted, hN⟩ := hcompleted.namespaced
  rw [← hmodule] at hfind
  refine ⟨v, stmt, withProps type c.extraction.result.get, hw.helper, hfind, hN, fun kind => ?_⟩
  obtain ⟨signature, hsignature, htext⟩ :=
    Option.map_eq_some_iff.mp (hw.captured hcomplete hlocal.first kind)
  have hstands : Stands comments kind signature.memberTypeText
      (withProps type c.extraction.result.get kind) := by
    rw [htext]
    exact stands_withProps hblocks hinserted kind
  refine ⟨signature, hsignature, hstands, fun htrim => ?_⟩
  rw [← memberTypeText_eq_writtenType htrim]
  exact hstands

/-- The small component with a description and a comment for its prop. -/
theorem process_captures_small : ∃ documented s',
    process smallComments smallSettings ⟨smallModule, []⟩ =
      (.ok (.success "A" documented), s') ∧
    Captured smallComments smallSettings "A" smallModule s'.module := by
  obtain ⟨documented, s', hsuccess⟩ := process_small
  obtain ⟨-, -, hnamespace⟩ := counts_small
  have hnone : smallModule.namespaceNamed? "A" = none := Option.isNone_iff_eq_none.mp hnamespace
  exact ⟨documented, s', hsuccess, process_captures (s := ⟨smallModule, []⟩) smallComments
    smallSettings completeComments_small readsLocally_small hsuccess hnone⟩

end ComponentDecl
