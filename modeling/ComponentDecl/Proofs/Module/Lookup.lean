import ComponentDecl.Proofs.Module.Batch

/-! # What look-ups find

    A look-up answers with a node below one of the statements.  Which tree it
    finds depends on the trees of the statements alone, so a look-up gives the
    same tree in two modules that have the same statements.

    Key theorems:
    - `Module.classNamed?_spec`, `Module.variableNamed?_spec`: where the answers stand
    - `Module.typeNamed?_tree`, `Module.variableNamed?_tree`: which trees they are
-/

namespace ComponentDecl

open Syntax

/-! ### Look-ups among trees -/

/-- The first declaration of a class of kinds with a name. -/
def declaredIn (p : Kind → Bool) (name : String) (ts : List Tree) : Option Tree :=
  ts.findSome? fun t =>
    if p t.unwrap.kind && t.unwrap.name? == some name then some t.unwrap else none

/-- The first variable with a name. -/
def variableIn (name : String) (ts : List Tree) : Option Tree :=
  ts.findSome? fun t =>
    if t.unwrap.kind.isVariables then t.unwrap.declarators.find? (·.name? == some name) else none

/-- Holds of a statement that declares something of a class of kinds with a name. -/
def Syntax.Tree.declares (p : Kind → Bool) (name : String) (t : Tree) : Bool :=
  p t.unwrap.kind && t.unwrap.name? == some name

/-- Holds of a statement that declares a variable with a name. -/
def Syntax.Tree.declaresVariable (name : String) (t : Tree) : Bool :=
  t.unwrap.kind.isVariables && t.unwrap.declarators.any (·.name? == some name)

namespace Module

variable {m : Module}

theorem statements_tree (m : Module) : m.statements.map (·.tree) = m.tree.parts :=
  Node.parts_tree m.root

theorem above_of_statement {stmt : Node} (h : stmt ∈ m.statements) :
    stmt.above = [m.root.place] :=
  Node.mem_children (Node.mem_children_of_mem_parts h)

theorem declarationOfKind?_tree (m : Module) (p : Kind → Bool) (name : String) :
    (m.declarationOfKind? p name).map (·.tree) = declaredIn p name m.tree.parts := by
  rw [declarationOfKind?, findStatement, declaredIn, ← statements_tree, List.map_findSome?,
    List.findSome?_map]
  congr 1
  funext stmt
  show Option.map _ (if (p stmt.unwrap.tree.kind && stmt.unwrap.name? == some name) then _ else _) =
    if (p stmt.tree.unwrap.kind && stmt.tree.unwrap.name? == some name) then _ else _
  rw [Node.name?_tree, Node.unwrap_tree]
  split
  · exact congrArg some (Node.unwrap_tree stmt)
  · rfl

theorem typeNamed?_tree (m : Module) (name : String) :
    (m.typeNamed? name).map (·.tree) = declaredIn Kind.isTypeDeclaration name m.tree.parts :=
  m.declarationOfKind?_tree _ name

theorem variableNamed?_tree (m : Module) (name : String) :
    (m.variableNamed? name).map (·.declarator.tree) = variableIn name m.tree.parts := by
  rw [variableNamed?, findStatement, variableIn, ← statements_tree, List.map_findSome?,
    List.findSome?_map]
  congr 1
  funext stmt
  show Option.map _ (if stmt.unwrap.tree.kind.isVariables then _ else _) =
    if stmt.tree.unwrap.kind.isVariables then _ else _
  rw [Node.unwrap_tree]
  split
  · show _ = stmt.tree.unwrap.declarators.find? _
    have hname : (fun d : Node => d.name? == some name) =
        (fun t : Tree => t.name? == some name) ∘ Node.tree := by
      funext d
      exact congrArg (· == some name) (Node.name?_tree d)
    rw [← Node.unwrap_tree, ← Node.declarators_tree, List.find?_map, Option.map_map, hname]
    rfl
  · rfl

/-! ### Where the answers stand -/

theorem findSome?_of_find? {α β : Type} {l : List α} {p : α → Bool} {f : α → Option β} {g : α → β}
    (h : ∀ a ∈ l, f a = if p a then some (g a) else none) :
    l.findSome? f = (l.find? p).map g := by
  induction l with
  | nil => rfl
  | cons a l ih =>
    have h := List.forall_mem_cons.mp h
    rw [List.findSome?_cons, h.1, List.find?_cons]
    cases p a with
    | true => rfl
    | false => exact ih h.2

/-- A variable is the first one of its declaration with its name. -/
theorem variableNamed?_declarator {name : String} {v : Variable}
    (h : m.variableNamed? name = some v) :
    v.declaration.declarators.find? (·.name? == some name) = some v.declarator := by
  obtain ⟨stmt, hstmt, hd⟩ := List.exists_of_findSome?_eq_some h
  dsimp only at hd
  split at hd
  · obtain ⟨d, hfind, rfl⟩ := Option.map_eq_some_iff.mp hd
    exact hfind
  · cases hd

/-- A declaration is found in the first statement that declares it. -/
theorem declarationOfKind?_eq (m : Module) (p : Kind → Bool) (name : String) :
    m.declarationOfKind? p name =
      (m.statements.find? (·.tree.declares p name)).map (·.unwrap) := by
  refine findSome?_of_find? fun stmt _ => ?_
  show (if (p stmt.unwrap.tree.kind && stmt.unwrap.name? == some name) then _ else _) = _
  rw [Node.name?_tree, Node.unwrap_tree]
  rfl

/-- Where no namespace of a name is found, no statement declares one. -/
theorem declares_namespace_eq_false {name : String} (h : m.namespaceNamed? name = none) :
    ∀ stmt ∈ m.statements, stmt.tree.declares Kind.isNamespace name = false := by
  rw [namespaceNamed?, declarationOfKind?_eq, Option.map_eq_none_iff, List.find?_eq_none] at h
  exact fun stmt hstmt => Bool.eq_false_iff.mpr (h stmt hstmt)

/-- A variable is found in the first statement that declares one with its name. -/
theorem variableNamed?_first {name : String} {v : Variable} (h : m.variableNamed? name = some v) :
    m.statements.find? (·.tree.declaresVariable name) = some v.statement := by
  unfold variableNamed? findStatement at h
  -- Whether a statement answers can be told from its tree.
  have hsome : ∀ stmt : Node, stmt.tree.declaresVariable name =
    (if stmt.unwrap.kind.isVariables then
      (stmt.unwrap.declarators.find? (·.name? == some name)).map
        fun d => (⟨stmt, stmt.unwrap, d⟩ : Variable) else none).isSome := by
    intro stmt
    show (stmt.tree.unwrap.kind.isVariables && _) = Option.isSome
      (if stmt.unwrap.tree.kind.isVariables
      then _ else _)
    rw [Node.unwrap_tree]
    cases stmt.tree.unwrap.kind.isVariables with
    | false => rfl
    | true =>
      rw [if_pos rfl, Option.isSome_map, List.isSome_find?, Bool.true_and, ← Node.unwrap_tree,
        ← Node.declarators_tree, List.any_map]
      congr 1
      funext d
      exact congrArg (· == some name) (Node.name?_tree d).symm
  obtain ⟨before, stmt, after, hsplit, hstmt, hbefore⟩ := List.findSome?_eq_some_iff.mp h
  rw [hsplit, List.find?_append, List.find?_eq_none.mpr, Option.none_or,
    List.find?_cons_of_pos]
  · dsimp only at hstmt
    split at hstmt
    · obtain ⟨d, -, rfl⟩ := Option.map_eq_some_iff.mp hstmt
      rfl
    · cases hstmt
  · rw [hsome]
    exact Option.isSome_iff_exists.mpr ⟨v, hstmt⟩
  · intro stmt hmem
    rw [hsome]
    have := hbefore stmt hmem
    dsimp only at this
    rw [this]
    exact Bool.false_ne_true

theorem declarationOfKind?_spec {p : Kind → Bool} {name : String} {d : Node}
    (h : m.declarationOfKind? p name = some d) :
    ∃ stmt ∈ m.statements, d = stmt.unwrap ∧ p d.kind = true ∧ d.name? = some name := by
  obtain ⟨stmt, hstmt, hd⟩ := List.exists_of_findSome?_eq_some h
  dsimp only at hd
  split at hd
  · next hcond =>
    rw [Bool.and_eq_true, beq_iff_eq] at hcond
    obtain rfl := Option.some.inj hd
    exact ⟨stmt, hstmt, rfl, hcond⟩
  · cases hd

theorem classNamed?_spec {name : String} {cls : Node} (h : m.classNamed? name = some cls) :
    ∃ stmt ∈ m.statements, cls = stmt.unwrap ∧ cls.kind.isClass = true ∧ cls.name? = some name :=
  declarationOfKind?_spec h

theorem variableNamed?_spec {name : String} {v : Variable} (h : m.variableNamed? name = some v) :
    v.statement ∈ m.statements ∧ v.declaration = v.statement.unwrap ∧
      v.declaration.kind.isVariables = true ∧ v.declarator ∈ v.declaration.declarators ∧
      v.declarator.name? = some name := by
  obtain ⟨stmt, hstmt, hd⟩ := List.exists_of_findSome?_eq_some h
  dsimp only at hd
  split at hd
  · next hkind =>
    obtain ⟨d, hfind, rfl⟩ := Option.map_eq_some_iff.mp hd
    refine ⟨hstmt, rfl, hkind, List.mem_of_find?_eq_some hfind, ?_⟩
    simpa using List.find?_some hfind
  · cases hd

end Module

end ComponentDecl
