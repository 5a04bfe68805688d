import ComponentDecl.Proofs.Module.Resolution

/-! # What is found after a batch

    A look-up passes over the trees at the top of a module until one has an
    answer.  Where a batch changes only statements without an answer, and puts
    only trees without an answer in their places, the look-up still finds the
    same.

    Key theorem:
    - `Module.findSome?_changes`: a look-up that a batch does not concern
-/

namespace ComponentDecl

open Syntax

variable {α : Type} {φ : Tree → Option α}

/-- What is no construct lacks the properties of constructs. -/
theorem lacks_of_not_part {p : Tree → Bool} (hp : ∀ t, p t = true → t.isPart = true) {t : Tree}
    (ht : t.isPart = false) : p t = false := by
  by_contra h
  rw [Bool.not_eq_false] at h
  rw [hp t h] at ht
  cases ht

/-- Holds of a look-up that answers constructs only. -/
def AnswersParts (φ : Tree → Option α) : Prop := ∀ t, t.isPart = false → φ t = none

theorem findSome?_parts (hφ : AnswersParts φ) (t : Tree) :
    t.parts.findSome? φ = t.nodes.findSome? φ := by
  unfold Tree.parts
  induction t.nodes with
  | nil => rfl
  | cons u ts ih =>
    cases hu : u.isPart with
    | true =>
      rw [List.filter_cons_of_pos hu, List.findSome?_cons, List.findSome?_cons, ih]
    | false =>
      rw [List.filter_cons_of_neg (by rw [hu]; exact Bool.false_ne_true), ih,
        List.findSome?_cons_of_isNone (by rw [hφ u hu]; rfl)]

theorem findSome?_eq_none {ts : List Tree} (h : ∀ t ∈ ts, φ t = none) : ts.findSome? φ = none :=
  List.findSome?_eq_none_iff.mpr h

theorem findSome?_flatMap_congr {β : Type} {l : List β} {f f' : β → List Tree}
    (h : ∀ b ∈ l, (f b).findSome? φ = (f' b).findSome? φ) :
    (l.flatMap f).findSome? φ = (l.flatMap f').findSome? φ := by
  induction l with
  | nil => rfl
  | cons b l ih =>
    have h := List.forall_mem_cons.mp h
    rw [List.flatMap_cons, List.flatMap_cons, List.findSome?_append, List.findSome?_append, h.1,
      ih h.2]

namespace Module

variable {m m' : Module} {g : Node → Option Change} {trees : Node → List Tree}

/-- The trees of a module are those of its rows. -/
theorem nodes_located (m : Module) :
    m.tree.nodes = m.located.flatMap fun rn => rn.1.flat [] none := by
  have hrows : m.located.flatMap (fun rn => rn.1.flat [] none) =
      (m.rows.flatMap Row.pieces).map (·.tree) := by
    rw [← located_rows, List.flatMap_map, List.map_flatMap]
    rfl
  rw [hrows, flatMap_rows, pieces, pieces_trees]
  rfl

theorem docs_not_parts (m : Module) {rn : Row × Node} (h : rn ∈ m.located) {t : Tree}
    (ht : t ∈ rn.1.docs.map (·.tree)) : t.isPart = false := by
  obtain ⟨d, hd, rfl⟩ := List.mem_map.mp ht
  exact isPart_of_documents (documents_of_located h d hd)

/-- The last tree of a row is the tree of its node. -/
theorem last_tree {rn : Row × Node} (h : rn ∈ m.located) : rn.1.last.tree = rn.2.tree := by
  obtain ⟨l, l', hsplit⟩ := List.append_of_mem h
  rw [(located_split hsplit).2, nodeAt_tree]

/-- The tree of a row's node is one of the module's trees. -/
theorem mem_nodes_of_located {rn : Row × Node} (h : rn ∈ m.located) :
    rn.2.tree ∈ m.tree.nodes := by
  have hlast : rn.1.last.tree ∈ rn.1.flat [] none :=
    List.mem_map_of_mem (List.mem_append_right _ (List.mem_singleton.mpr rfl))
  rw [m.nodes_located, ← last_tree h]
  exact List.mem_flatMap.mpr ⟨rn, h, hlast⟩

/-- A look-up finds the same if no changed statement had an answer and no tree in
    the place of one has an answer. -/
theorem findSome?_changes (hφ : AnswersParts φ)
    (hnodes : m'.tree.nodes = m.located.flatMap fun rn => rn.1.flat (trees rn.2) (g rn.2))
    (hformer : ∀ rn ∈ m.located, g rn.2 ≠ none → φ rn.2.tree = none)
    (hnew : ∀ rn ∈ m.located, ∀ edits es, g rn.2 = some (.becomes edits es) →
      ∀ t ∈ trees rn.2, φ t = none) :
    m'.tree.parts.findSome? φ = m.tree.parts.findSome? φ := by
  rw [findSome?_parts hφ, findSome?_parts hφ, hnodes, m.nodes_located]
  refine findSome?_flatMap_congr fun rn hrn => ?_
  have hdocs : ∀ t ∈ rn.1.docs.map (·.tree), φ t = none :=
    fun t ht => hφ t (m.docs_not_parts hrn ht)
  cases hg : g rn.2 with
  | none => rfl
  | some change =>
    -- Neither the former row nor what comes in its place has an answer.
    have hformer : (rn.1.flat [] none).findSome? φ = none := by
      refine findSome?_eq_none fun t ht => ?_
      rw [Row.flat, Row.pieces, List.map_append, List.mem_append, List.map_singleton,
        List.mem_singleton, last_tree hrn] at ht
      rcases ht with ht | rfl
      · exact hdocs t ht
      · exact hformer rn hrn (by rw [hg]; exact Option.some_ne_none _)
    rw [hformer]
    cases change with
    | goes => rfl
    | becomes edits es =>
      refine findSome?_eq_none fun t ht => ?_
      rcases List.mem_append.mp ht with ht | ht
      · exact hdocs t ht
      · exact hnew rn hrn edits es hg t ht

end Module

/-! ### Look-ups by name -/

/-- Holds of a class of kinds of declarations. -/
def DeclaresParts (p : Kind → Bool) : Prop := ∀ t : Tree, p t.kind = true → t.isPart = true

theorem declaresParts_class : DeclaresParts Kind.isClass := by
  intro t h
  unfold Kind.isClass at h
  split at h
  · next hkind => rw [Tree.isPart, hkind]; rfl
  · next hkind => rw [Tree.isPart, hkind]; rfl
  · next hkind => rw [Tree.isPart, hkind]; rfl
  · cases h

theorem declaresParts_variables : DeclaresParts Kind.isVariables := by
  intro t h
  unfold Kind.isVariables at h
  split at h
  · next hkind => rw [Tree.isPart, hkind]; rfl
  · next hkind => rw [Tree.isPart, hkind]; rfl
  · cases h

theorem declaresParts_namespace : DeclaresParts Kind.isNamespace := by
  intro t h
  unfold Kind.isNamespace at h
  split at h
  · next hkind => rw [Tree.isPart, hkind]; rfl
  · next hkind => rw [Tree.isPart, hkind]; rfl
  · cases h

theorem declaresParts_type : DeclaresParts Kind.isTypeDeclaration := by
  intro t h
  unfold Kind.isTypeDeclaration at h
  split at h
  · next hkind => rw [Tree.isPart, hkind]; rfl
  · next hkind => rw [Tree.isPart, hkind]; rfl
  · cases h

/-- Variables are neither classes nor namespaces nor types. -/
theorem Syntax.Kind.isVariables_cases {k : Kind} (h : k.isVariables = true) :
    k.isClass = false ∧ k.isNamespace = false ∧ k.isTypeDeclaration = false := by
  unfold isVariables at h
  split at h
  · decide
  · decide
  · cases h

/-- Namespaces are neither classes nor variables nor types. -/
theorem Syntax.Kind.isNamespace_cases {k : Kind} (h : k.isNamespace = true) :
    k.isClass = false ∧ k.isVariables = false ∧ k.isTypeDeclaration = false := by
  unfold isNamespace at h
  split at h
  · decide
  · decide
  · cases h

/-- A loose alias is a type and nothing else. -/
theorem Syntax.Kind.ne_alias {k : Kind} (h : k.isTypeDeclaration = false) :
    k ≠ .typeAliasDeclaration := by
  rintro rfl
  cases h

/-- A tree of another class of kinds declares nothing of this one. -/
theorem Syntax.Tree.declares_eq_false {p : Kind → Bool} {t : Tree} (h : p t.unwrap.kind = false)
    (name : String) : t.declares p name = false := by
  rw [declares, h, Bool.false_and]

theorem DeclaresParts.isPart_of_declares {p : Kind → Bool} (hp : DeclaresParts p) {name : String}
    {t : Tree} (h : t.declares p name = true) : t.isPart = true := by
  rw [Tree.declares, Bool.and_eq_true] at h
  exact Tree.isPart_of_unwrap (hp _ h.1)

theorem Syntax.Tree.isPart_of_declaresVariable {name : String} {t : Tree}
    (h : t.declaresVariable name = true) : t.isPart = true := by
  rw [declaresVariable, Bool.and_eq_true] at h
  exact isPart_of_unwrap (declaresParts_variables _ h.1)

theorem Syntax.Tree.isPart_of_alias {t : Tree}
    (h : (t.unwrap.kind == .typeAliasDeclaration) = true) : t.isPart = true := by
  refine isPart_of_unwrap ?_
  rw [isPart, beq_iff_eq.mp h]
  rfl

theorem DeclaresParts.answers {p : Kind → Bool} (hp : DeclaresParts p) (name : String) :
    AnswersParts fun t : Tree =>
      if p t.unwrap.kind && t.unwrap.name? == some name then some t.unwrap else none := by
  intro t ht
  refine if_neg fun h => ?_
  rw [Bool.and_eq_true] at h
  rw [Tree.isPart_of_unwrap (hp _ h.1)] at ht
  cases ht

theorem answersParts_variable (name : String) : AnswersParts fun t : Tree =>
    if t.unwrap.kind.isVariables then t.unwrap.declarators.find? (·.name? == some name)
    else none := by
  intro t ht
  refine if_neg fun h => ?_
  rw [Tree.isPart_of_unwrap (declaresParts_variables _ h)] at ht
  cases ht

end ComponentDecl
