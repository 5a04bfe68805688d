import ComponentDecl.Module.Basic

/-! # Declarations of a module

    Where the declarations of a module stand: the default export, classes,
    variables, types and namespaces, each found by its name among the top-level
    statements. -/

namespace ComponentDecl

open Syntax

/-! ## Kinds of declarations -/

/-- Statements that hold a declaration and are none themselves. -/
def Syntax.Kind.isWrapper : Kind → Bool
  | .exportStatement | .ambientDeclaration | .expressionStatement => true
  | _ => false

/-- Classes, declared or given as a value. -/
def Syntax.Kind.isClass : Kind → Bool
  | .classDeclaration | .abstractClassDeclaration | .classExpression => true
  | _ => false

/-- Declarations of variables. -/
def Syntax.Kind.isVariables : Kind → Bool
  | .lexicalDeclaration | .variableDeclaration => true
  | _ => false

/-- Namespaces and modules. -/
def Syntax.Kind.isNamespace : Kind → Bool
  | .internalModule | .ambientModule => true
  | _ => false

/-- Declarations that give a type a name. -/
def Syntax.Kind.isTypeDeclaration : Kind → Bool
  | .typeAliasDeclaration | .interfaceDeclaration => true
  | _ => false

namespace Syntax.Tree

mutual

/-- The number of trees on the longest way down. -/
def height : Tree → Nat
  | .token _ _ _ => 0
  | .node _ _ children => heightAll children + 1

/-- The greatest height among neighbouring trees. -/
def heightAll : List Tree → Nat
  | [] => 0
  | t :: ts => max t.height (heightAll ts)

end

end Syntax.Tree

namespace Syntax.Node

/-- What a wrapper holds, at most `fuel` wrappers deep. -/
def unwrapWithin : Nat → Node → Node
  | 0, n => n
  | fuel + 1, n =>
    if n.kind.isWrapper then
      match (n.child? .declaration).or n.parts.head? with
      | some inner => unwrapWithin fuel inner
      | none => n
    else n

/-- The declaration inside the words and statements that wrap it, or the node
    itself when it is no wrapper. -/
def unwrap (n : Node) : Node := unwrapWithin n.tree.height n

/-- Holds of a statement that exports something as the module's own. -/
def isDefaultExport (n : Node) : Bool :=
  n.kind == .exportStatement && n.children.any (·.typeName == "default")

/-- The variables that a declaration declares. -/
def declarators (n : Node) : List Node := n.partsOf .variableDeclarator

/-- The type inside an annotation, or the node itself when it is no
    annotation. -/
def annotatedType? (n : Node) : Option Node :=
  if n.kind = .typeClause then n.parts.head? else some n

end Syntax.Node

/-! ## What is found -/

/-- A declaration with the top-level statement that holds it. -/
structure Declared where
  statement : Node
  declaration : Node

/-- A variable with its declaration and its statement. -/
structure Variable where
  statement : Node
  declaration : Node
  declarator : Node

/-- What a module exports as its own. -/
structure DefaultExport where
  /-- The exporting statement. -/
  statement : Node
  /-- What is exported. -/
  declaration : Option Node
  /-- The top-level statement that holds what is exported. -/
  declarationStatement : Option Node

namespace Module

/-- The top-level statements. -/
def statements (m : Module) : List Node := m.root.parts

/-- The first top-level statement for which a function has an answer. -/
def findStatement {α : Type} (m : Module) (f : Node → Option α) : Option α :=
  m.statements.findSome? f

/-- The first declaration with a name; of variables, the single variable.  A
    value that a statement exports is not a declaration. -/
def declarationNamed? (m : Module) (name : String) : Option Declared :=
  m.findStatement fun stmt =>
    if stmt.isDefaultExport && (stmt.child? .value).isSome then none
    else
      let inner := stmt.unwrap
      if inner.kind.isVariables then
        (inner.declarators.find? (·.name? == some name)).map (⟨stmt, ·⟩)
      else if inner.name? = some name then some ⟨stmt, inner⟩
      else none

/-- The first declaration of a class of kinds with a name. -/
def declarationOfKind? (m : Module) (p : Kind → Bool) (name : String) : Option Node :=
  m.findStatement fun stmt =>
    let inner := stmt.unwrap
    if p inner.kind && inner.name? == some name then some inner else none

/-- The first class with a name. -/
def classNamed? (m : Module) (name : String) : Option Node :=
  m.declarationOfKind? Kind.isClass name

/-- The first type alias or interface with a name. -/
def typeNamed? (m : Module) (name : String) : Option Node :=
  m.declarationOfKind? Kind.isTypeDeclaration name

/-- The first namespace with a name. -/
def namespaceNamed? (m : Module) (name : String) : Option Node :=
  m.declarationOfKind? Kind.isNamespace name

/-- The first variable with a name. -/
def variableNamed? (m : Module) (name : String) : Option Variable :=
  m.findStatement fun stmt =>
    let inner := stmt.unwrap
    if inner.kind.isVariables then
      (inner.declarators.find? (·.name? == some name)).map (⟨stmt, inner, ·⟩)
    else none

/-- The statements that declare a type alias. -/
def typeAliases (m : Module) : List Node :=
  m.statements.filter (·.unwrap.kind == .typeAliasDeclaration)

/-- The default export of a module.  An exported name stands for the class of
    that name, or else for the first declaration of that name. -/
def defaultExport? (m : Module) : Option DefaultExport :=
  (m.statements.find? (·.isDefaultExport)).map fun stmt =>
    let exported := (stmt.child? .declaration).or (stmt.child? .value)
    let declared := exported.bind fun e =>
      if e.kind = .identifier then
        match m.classNamed? e.text with
        | some c => some ⟨c.topLevel, c⟩
        | none => m.declarationNamed? e.text
      else none
    match declared with
    | some (d : Declared) => ⟨stmt, some d.declaration, some d.statement⟩
    | none => ⟨stmt, exported, exported.map fun _ => stmt⟩

end Module

/-- The type alias of a name inside a namespace. -/
def Syntax.Node.typeAlias? (ns : Node) (name : String) : Option Node :=
  match ns.child? .body with
  | none => none
  | some body => body.parts.findSome? fun stmt =>
    let inner := stmt.unwrap
    if inner.kind = .typeAliasDeclaration && inner.name? == some name then some inner else none

/-! ## Space before a node -/

/-- The start of a node with the white space and comments before it, back to the
    end of the token before them. -/
def Syntax.Node.fullStart (n : Node) : Nat :=
  match n.place.before.find? (·.tree.kind != .comment) with
  | some previous => previous.stop
  | none =>
    match n.parent? with
    | some p => if p.isRoot then 0 else p.start
    | none => 0

end ComponentDecl
