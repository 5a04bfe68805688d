import ComponentDecl.Syntax.Grammar.Expression

/-! # Declarations

    Classes, interfaces, types, enumerations, functions, variables and
    namespaces, and the word that declares them without defining them. -/

namespace ComponentDecl.Syntax

open Fragment

/-! ## Classes and types -/

/-- The heritage and the members of a declared class.  A base may also be a
    comparison that ends in an object; this reading is taken where it leaves the
    class its members. -/
def declaredClassRest (g : Grammar) : Fragment :=
  alt [seq [heritage g (role .value (g .expression)), role .body (classBody g)], g .classRest]

/-- A class with a name. -/
def classDeclaration (g : Grammar) : Fragment :=
  node .classDeclaration (seq [many (decorator g), word "class",
    role .name typeIdentifier, opt (typeParameters g), declaredClassRest g,
    opt (omittedSemicolon .type)])

/-- A class that cannot be instantiated. -/
def abstractClassDeclaration (g : Grammar) : Fragment :=
  node .abstractClassDeclaration (seq [many (decorator g), word "abstract", word "class",
    role .name typeIdentifier, opt (typeParameters g), declaredClassRest g])

/-- An interface. -/
def interfaceDeclaration (g : Grammar) : Fragment :=
  node .interfaceDeclaration (seq [word "interface", role .name typeIdentifier,
    opt (typeParameters g),
    opt (node .extendsTypeClause (seq [word "extends",
      sepBy (sym ",") (role .type (typeReference g))])),
    role .body (node .interfaceBody (members g))])

/-- A name for a type. -/
def typeAliasDeclaration (g : Grammar) : Fragment :=
  node .typeAliasDeclaration (seq [word "type", role .name typeIdentifier,
    opt (typeParameters g), sym "=", role .value (g .type), semicolon .type])

/-- An enumeration. -/
def enumDeclaration (g : Grammar) : Fragment :=
  let entry := chainOnce (role .name (propertyName g))
    [⟨.enumAssignment, some .name, seq [sym "=", role .value (g .expression)]⟩]
  node .enumDeclaration (seq [opt (word "const"), word "enum", role .name identifier,
    role .body (node .enumBody (seq [sym "\x7b", opt (commaList entry), sym "\x7d"]))])

/-! ## Functions -/

/-- A function with a body. -/
def functionDeclaration (g : Grammar) : Fragment :=
  alt [
    node .functionDeclaration (seq [opt (word "async"), word "function",
      role .name identifier, callSignature g, role .body (block g),
      opt (omittedSemicolon .type)]),
    node .generatorFunctionDeclaration (seq [opt (word "async"), word "function", sym "*",
      role .name identifier, callSignature g, role .body (block g),
      opt (omittedSemicolon .type)])]

/-- A function without a body. -/
def functionSignature (g : Grammar) : Fragment :=
  node .functionSignature (seq [opt (word "async"), word "function",
    role .name identifier, callSignature g, semicolon .signature])

/-! ## Variables -/

/-- One variable with its type and its value. -/
def variableDeclarator (g : Grammar) : Fragment :=
  node .variableDeclarator (alt [
    seq [role .name identifier, sym "!", role .type (typeClause g)],
    seq [role .name (g .pattern), annotated g, initialValue g]])

/-- The variables of one declaration. -/
def variableList (g : Grammar) : Fragment := sepBy (sym ",") (variableDeclarator g)

/-- What ends a list of variables: after a type the next line may start with a
    bracket. -/
def variableListEnd : Fragment := alt [semicolon .expression, semicolon .type]

/-- Variables that live in the block around them. -/
def lexicalDeclaration (g : Grammar) : Fragment :=
  node .lexicalDeclaration (seq [anyWord ["const", "let"], variableList g, variableListEnd])

/-- Variables that live in the function around them. -/
def variableDeclaration (g : Grammar) : Fragment :=
  node .variableDeclaration (seq [word "var", variableList g, variableListEnd])

/-! ## Namespaces and modules -/

/-- The name and the optional body of a namespace or module. -/
def moduleRest (g : Grammar) : Fragment :=
  seq [role .name (alt [string, dottedName]), opt (role .body (block g))]

/-- A namespace. -/
def internalModule (g : Grammar) : Fragment :=
  node .internalModule (seq [word "namespace", moduleRest g])

/-- A module. -/
def ambientModule (g : Grammar) : Fragment :=
  node .ambientModule (seq [word "module", moduleRest g])

/-- A name for a member of a namespace. -/
def importAlias : Fragment :=
  node .importAlias (seq [word "import", identifier, sym "=", dottedName, semicolon .expression])

/-! ## All declarations -/

/-- A declaration that may stand at the top of a module, by itself or after a
    word that exports it. -/
def plainDeclaration (g : Grammar) : Fragment :=
  alt [classDeclaration g, abstractClassDeclaration g, interfaceDeclaration g,
    typeAliasDeclaration g, enumDeclaration g, functionDeclaration g, functionSignature g,
    lexicalDeclaration g, variableDeclaration g, internalModule g, ambientModule g, importAlias]

/-- A declaration of something defined elsewhere. -/
def ambientDeclaration (g : Grammar) : Fragment :=
  node .ambientDeclaration (seq [word "declare",
    alt [seq [word "global", block g], plainDeclaration g,
      seq [word "module", sym ".", memberIdentifier, sym ":", g .type, semicolon .type]]])

/-- A declaration. -/
def declaration (g : Grammar) : Fragment := alt [ambientDeclaration g, plainDeclaration g]

end ComponentDecl.Syntax
