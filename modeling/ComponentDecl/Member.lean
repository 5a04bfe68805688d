import ComponentDecl.Module.Query

/-! # Members of structural types

    The properties that a type has by its structure: those of an object type or
    an interface, reached through parentheses, intersections and names of types
    declared in the same module.  No type is checked; any other shape has no
    members. -/

namespace ComponentDecl

open Syntax

/-! ## Property signatures -/

/-- The name of a property without quotes. -/
def Syntax.Node.memberName (signature : Node) : String :=
  Text.stripQuotes (((signature.child? .name).map (·.text)).getD "")

/-- The type of a property as written; a property without a type may be
    anything. -/
def Syntax.Node.memberTypeText (signature : Node) : String :=
  let type := (signature.child? .type).bind (·.annotatedType?)
  let written := Text.strip ((type.map (·.text)).getD "")
  if written.isEmpty then "any" else written

/-- The type name that a type refers to, if it is a reference. -/
def Syntax.Node.reference? (type : Node) : Option String :=
  match type.kind with
  | .typeIdentifier => some type.text
  | .genericType =>
    let name := ((type.child? .name).map (·.text)).getD ""
    if name.isEmpty then none else some name
  | _ => none

/-! ## Maps of members -/

/-- Property signatures by name, in the order in which the names first
    appeared. -/
abbrev Members := List (String × Node)

namespace Members

/-- The signature of a name. -/
def get? (ms : Members) (name : String) : Option Node :=
  (ms.find? (·.1 == name)).map (·.2)

/-- Gives a name a signature; a name already there keeps its place. -/
def insert (ms : Members) (name : String) (signature : Node) : Members :=
  if ms.any (·.1 == name) then
    ms.map fun entry => if entry.1 == name then (name, signature) else entry
  else ms ++ [(name, signature)]

/-- Members overridden and continued by later ones. -/
def merge (ms later : Members) : Members :=
  later.foldl (fun acc entry => acc.insert entry.1 entry.2) ms

/-- The members that property signatures declare. -/
def ofSignatures (signatures : List Node) : Members :=
  signatures.foldl (fun acc signature => acc.insert signature.memberName signature) []

end Members

/-! ## Resolution -/

namespace Module

/-- The members of a type and the references followed so far, where `followed`
    holds those followed before.  A reference is followed once in a whole
    resolution.  `fuel` bounds the descents and references on one path, and is
    never used up (`resolutionBound`).  That a resolution nested about a thousand
    references or parentheses deep may exhaust the stack is left out. -/
def resolveWithin (m : Module) : Nat → List String → Node → Members × List String
  | 0, followed, _ => ([], followed)
  | fuel + 1, followed, type =>
    match type.kind with
    | .objectType | .interfaceBody =>
      (Members.ofSignatures (type.partsOf .propertySignature), followed)
    | .parenthesizedType =>
      match type.parts.head? with
      | some inner => resolveWithin m fuel followed inner
      | none => ([], followed)
    | .intersectionType =>
      type.parts.foldl
        (fun acc part =>
          let found := resolveWithin m fuel acc.2 part
          (acc.1.merge found.1, found.2))
        ([], followed)
    | _ =>
      match type.reference? with
      | none => ([], followed)
      | some name =>
        if followed.contains name then ([], followed)
        else
          let followed := name :: followed
          match m.typeNamed? name with
          | none => ([], followed)
          | some declared =>
            let role := if declared.kind = .interfaceDeclaration then Role.body else Role.value
            match declared.child? role with
            | none => ([], followed)
            | some target => resolveWithin m fuel followed target

/-- A bound on the steps of one path of a resolution: between two references it
    only descends, and it follows no more references than there are
    declarations. -/
def resolutionBound (m : Module) : Nat :=
  (m.statements.length + 1) * (m.tree.height + 1)

/-- The members of a type. -/
def resolveMembers (m : Module) (type : Node) : Members :=
  (m.resolveWithin m.resolutionBound [] type).1

end Module

end ComponentDecl
