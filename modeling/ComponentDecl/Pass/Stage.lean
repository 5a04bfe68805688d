import ComponentDecl.Comments
import ComponentDecl.Member
import ComponentDecl.Pass.Event
import ComponentDecl.Settings.Basic

/-! # The stages of a pass

    Each stage looks at the module and answers with a plan: a result, a batch of
    edits, and what is to be reported.  A stage that fails has no plan, so it
    changes nothing. -/

namespace ComponentDecl

open Syntax

/-- What a stage intends. -/
structure Plan (α : Type) where
  /-- What the next stages need. -/
  result : α
  /-- The changes, all at once. -/
  edits : List Edit
  /-- What is reported before the changes. -/
  notices : List Event
  /-- What is reported after the changes. -/
  reports : List Event

/-! ## From the default export to an ambient class -/

/-- The clause that names the base of a class. -/
def Syntax.Node.extendsClause? (cls : Node) : Option Node :=
  (cls.children.find? (·.kind == .classHeritage)).bind fun heritage =>
    heritage.children.find? (·.kind == .extendsClause)

/-- The type arguments that a clause gives the base class. -/
def Syntax.Node.baseTypeArguments (clause : Node) : List Node :=
  let own := clause.child? .typeArguments
  let inner := (clause.child? .value).bind fun value =>
    if value.kind = .instantiationExpression then
      value.children.find? (·.kind == .typeArguments)
    else none
  match own.or inner with
  | some arguments => arguments.parts
  | none => []

/-- What comes to stand before the word of the class: the description, if there
    is one, and the word that declares. -/
def declareHead (comments : Option Comments) : String :=
  match comments.bind (·.description) with
  | some d => if d.isEmpty then "declare " else DocComment.render d "" ++ "\ndeclare "
  | none => "declare "

/-- Makes the default export a class that is declared and not exported, with its
    description above it and its base's three type arguments taken from its
    namespace. -/
def normalizeExport (m : Module) (comments : Option Comments) (settings : Settings) :
    Except Failure (Plan String) := do
  let some exported := m.defaultExport? | throw .missingDefaultExport
  let some cls := exported.declaration.filter (·.kind.isClass)
    | throw (.exportedNonClass (m.mention (exported.declaration.getD exported.statement)))
  let some className := cls.name? | throw (.unnamedClass (m.mention cls))
  let some clause := cls.extendsClause? | throw (.missingHeritage className (m.mention cls))
  let statement := exported.declarationStatement.getD exported.statement
  let head : Edit := ⟨statement.start, cls.start, declareHead comments⟩
  let separate :=
    if exported.statement.start ≠ statement.start then [m.removeStatement exported.statement]
    else []
  let arguments := clause.baseTypeArguments
  let count := arguments.length
  if count = AliasKind.all.length then
    let named := (AliasKind.all.zip arguments).map fun (kind, argument) =>
      Edit.replace argument (className ++ "." ++ kind.name)
    return ⟨className, head :: separate ++ named, [], [.normalized className]⟩
  else
    match settings.argumentPolicy with
    | .error => throw (.argumentMismatch className count (m.mention clause))
    | .warn =>
      return ⟨className, head :: separate, [.argumentsKept className count clause.text],
        [.normalized className]⟩
    | .ignore => return ⟨className, head :: separate, [], [.normalized className]⟩

/-! ## The helper variable -/

/-- The type text of one of the helper's members. -/
def captureType (m : Module) (settings : Settings) (helper : Variable) (members : Members)
    (kind : AliasKind) : Except Failure String :=
  match members.get? kind.member with
  | some signature => .ok signature.memberTypeText
  | none =>
    .error (.missingMember settings.helperVariable kind (m.mention helper.declarator))

/-- Takes the types of the props, events and slots from the helper variable and
    removes it. -/
def extractTypes (m : Module) (settings : Settings) : Except Failure (Plan CapturedTypes) := do
  let some helper := m.variableNamed? settings.helperVariable
    | throw (.missingHelper settings.helperVariable)
  let type := (helper.declarator.child? .type).bind (·.annotatedType?)
  let members := (type.map m.resolveMembers).getD []
  let props ← captureType m settings helper members .props
  let events ← captureType m settings helper members .events
  let slots ← captureType m settings helper members .slots
  return ⟨⟨props, events, slots⟩, [m.removeVariable helper], [],
    [.typesExtracted settings.helperVariable]⟩

/-! ## The namespace -/

/-- Adds the namespace right after the statement of the class, or at the end of
    a module without such a class.  The plan takes it for granted that there is
    room for the indentation: a pass asks for that first. -/
def buildNamespace (m : Module) (className : String) (types : CapturedTypes)
    (settings : Settings) : Plan String :=
  let indent := String.ofList (List.replicate settings.indentWidth ' ')
  let text := Namespace.declaration className types indent
  let edit := match m.classNamed? className with
    | some cls => Edit.insertAfter cls.topLevel text
    | none => m.append text
  ⟨className, [edit], [], [.namespaceBuilt className]⟩

/-! ## Comments of props -/

/-- Puts a comment on a line of its own before a signature and the space before
    it. -/
def documentSignature (m : Module) (comments : Comments) (signature : Node) : Option Edit :=
  (comments.prop? signature.memberName).map fun doc =>
    let full := match m.fullText signature with
      | .ok t => t
      | .error _ => signature.text
    ⟨signature.fullStart, signature.stop, "\n" ++ doc ++ "\n" ++ full⟩

/-- Puts the comments of props above the members of the namespace's first
    alias, and answers how many members got one. -/
def reattachComments (m : Module) (ns : String) (comments : Option Comments) : Plan Nat :=
  match comments.filter (!·.props.isEmpty) with
  | none => ⟨0, [], [], []⟩
  | some comments =>
    let propsAlias := (m.namespaceNamed? ns).bind (·.typeAlias? AliasKind.props.name)
    let type := propsAlias.bind (·.child? .value)
    match type.filter (·.kind == .objectType) with
    | none => ⟨0, [], [], [.propsWithoutMembers ns (type.map (·.typeName))]⟩
    | some type =>
      let edits := (type.partsOf .propertySignature).filterMap (documentSignature m comments)
      ⟨edits.length, edits, [], [.commentsReattached ns edits.length]⟩

/-! ## Exports -/

/-- Removes the loose type aliases of a module and answers how many there
    were. -/
def dropAliases (m : Module) : Plan Nat :=
  let aliases := m.typeAliases
  ⟨aliases.length, aliases.map m.removeStatement, [], []⟩

/-- Exports a class as the module's own, after `removed` aliases went away. -/
def exportClass (m : Module) (className : String) (removed : Nat) : Plan Unit :=
  ⟨(), [m.append ("export default " ++ className ++ ";")], [], [.exportsReplaced removed]⟩

end ComponentDecl
