import ComponentDecl.Syntax.Grammar.Pattern

/-! # Types

    The type language.  An intersection binds tighter than a union, a union
    tighter than a conditional type; an array mark or an index binds to the
    primary type before it. -/

namespace ComponentDecl.Syntax

open Fragment

/-! ## References -/

/-- A literal text as a class of lexemes of its own kind. -/
def namedWord (kind : Kind) (w : String) : Fragment :=
  token kind (Lexeme.exactWord w.toList)

/-- Reads a dotted name as the name of a type: its last part names the type. -/
def asTypeName : Tree → Tree
  | .node r .nestedIdentifier [scope, point, last] =>
    .node r .nestedTypeIdentifier [scope, point, (last.withKind .typeIdentifier).withRole .name]
  | .token r _ text => .token r .typeIdentifier text
  | t => t

theorem spell_asTypeName (t : Tree) : (asTypeName t).spell = t.spell := by
  unfold asTypeName
  split <;> simp

/-- A type name, perhaps inside namespaces. -/
def typeName : Fragment := mapLast asTypeName spell_asTypeName dottedName

/-- A type name with optional type arguments. -/
def typeReference (g : Grammar) : Fragment :=
  chainOnce typeName [⟨.genericType, some .name, role .typeArguments (typeArguments g)⟩]

/-! ## Members of object types -/

/-- The clause of a type that maps over names. -/
def mappedTypeClause (g : Grammar) : Fragment :=
  node .mappedTypeClause (seq [role .name typeIdentifier, word "in", role .type (g .type),
    opt (seq [word "as", g .type])])

/-- A member for all names of a type. -/
def indexSignature (g : Grammar) : Fragment :=
  node .indexSignature (seq [
    opt (seq [opt (alt [sym "+", sym "-"]), word "readonly"]),
    sym "[",
    alt [seq [role .name identifier, sym ":", g .type], mappedTypeClause g],
    sym "]",
    alt [
      role .type (node .omittingTypeClause (seq [sym "-?:", g .type])),
      role .type (node .addingTypeClause (seq [sym "+?:", g .type])),
      role .type (node .optingTypeClause (seq [sym "?:", g .type])),
      role .type (typeClause g)]])

/-- A member that makes instances. -/
def constructSignature (g : Grammar) : Fragment :=
  node .constructSignature (seq [opt (modifier "abstract"), word "new",
    opt (typeParameters g), formalParameters g, annotated g])

/-- A method without a body. -/
def methodSignature (g : Grammar) : Fragment :=
  node .methodSignature (seq [
    opt accessibility, opt (modifier "static"), opt overriding, opt (modifier "readonly"),
    opt (modifier "async"), opt (alt [modifier "get", modifier "set", sym "*"]),
    role .name (propertyName g), opt (sym "?"), callSignature g])

/-- A property with an optional type. -/
def propertySignature (g : Grammar) : Fragment :=
  node .propertySignature (seq [
    opt accessibility, opt (modifier "static"), opt overriding, opt (modifier "readonly"),
    role .name (propertyName g), opt (sym "?"), annotated g])

/-- One member of an object type. -/
def typeMember (g : Grammar) : Fragment :=
  alt [constructSignature g, node .callSignature (callSignature g), indexSignature g,
    methodSignature g, propertySignature g]

/-- Members between braces, each ended by a semicolon, a comma or a line. -/
def members (g : Grammar) : Fragment :=
  let separator := alt [sym ",", semicolon .type]
  seq [sym "\x7b",
    opt (seq [opt (alt [sym ",", sym ";"]), typeMember g,
      many (seq [separator, typeMember g]), opt separator]),
    sym "\x7d"]

/-- An object type. -/
def objectType (g : Grammar) : Fragment := node .objectType (members g)

/-! ## Other primary types -/

/-- One element of a tuple type. -/
def tupleMember (g : Grammar) : Fragment :=
  alt [
    node .requiredParameter
      (seq [alt [node .restPattern (seq [sym "...", identifier]), identifier], annotatedTuple]),
    node .optionalParameter (seq [identifier, sym "?", annotatedTuple]),
    node .restType (seq [sym "...", g .type]),
    chainOnce (g .type) [⟨.optionalType, none, sym "?"⟩]]
where
  /-- The type of a named element. -/
  annotatedTuple : Fragment := role .type (typeClause g)

/-- A template of literal texts and types. -/
def templateLiteralType (g : Grammar) : Fragment :=
  node .templateLiteralType (seq [lexeme .mark (Lexeme.exactly ['\x60']),
    many (alt [lexeme .stringFragment Lexeme.templateChars,
      lexeme .escapeSequence Lexeme.escape,
      node .templateType (seq [lexeme .mark (Lexeme.exactly ['$', '\x7b']), g .type, sym "\x7d"])]),
    lexeme .mark (Lexeme.exactly ['\x60'])])

/-- A type that a word of the language names. -/
def predefinedType : Fragment :=
  alt [node .predefinedType (seq [word "unique", word "symbol"]),
    alt (["any", "number", "boolean", "string", "symbol", "void", "unknown", "never",
      "object"].map (namedWord .predefinedType))]

/-- A type with one value. -/
def literalType : Fragment :=
  node .literalType (alt [string, number,
    node .unaryExpression (seq [alt [sym "-", sym "+"], number]),
    namedWord .trueLiteral "true", namedWord .falseLiteral "false",
    namedWord .nullLiteral "null", namedWord .undefinedLiteral "undefined"])

/-- Holds where the next token stands on the same line. -/
def sameLine (s : List Char) : Bool :=
  !(s.takeWhile Lexeme.isSpace).contains '\n'

/-- The arguments of a call inside a type. -/
def typeLevelArguments (g : Grammar) : Fragment :=
  node .arguments (seq [sym "(", opt (commaList (g .expression)), sym ")"])

/-- The call that names a module inside a type. -/
def importedModule (g : Grammar) : Fragment :=
  node .callExpression (seq [namedWord .importCall "import", typeLevelArguments g])

/-- The type of a value: of a name, or of what is found from there by members,
    keys and calls. -/
def typeQuery (g : Grammar) : Fragment :=
  let key := alt [predefinedType, string, number]
  node .typeQuery (seq [word "typeof",
    chain (alt [importedModule g, namedWord .thisReference "this", identifier])
      [⟨.memberExpression, none,
        seq [alt [sym ".", sym "?."], alt [privateIdentifier, memberIdentifier]]⟩,
       ⟨.subscriptExpression, none,
        seq [opt (sym "?."), ahead sameLine, sym "[", key, sym "]"]⟩,
       ⟨.callExpression, none, seq [ahead sameLine, typeLevelArguments g]⟩,
       ⟨.instantiationExpression, none, role .typeArguments (typeArguments g)⟩]])

/-- A primary type, without the array marks and indices after it. -/
def primaryType (g : Grammar) : Fragment :=
  alt [
    node .parenthesizedType (seq [sym "(", g .type, sym ")"]),
    objectType g,
    node .tupleType (seq [sym "[", opt (commaList (tupleMember g)), sym "]"]),
    templateLiteralType g,
    predefinedType,
    literalType,
    namedWord .thisType "this",
    typeQuery g,
    chain (importedModule g) [⟨.memberExpression, none, seq [sym ".", memberIdentifier]⟩],
    namedWord .mark "const",
    token .existentialType (Lexeme.exactly ['*']),
    typeReference g]

/-- A primary type with the array marks and indices after it. -/
def indexedType (g : Grammar) : Fragment :=
  chain (primaryType g)
    [⟨.arrayType, none, seq [ahead sameLine, sym "[", sym "]"]⟩,
     ⟨.lookupType, none, seq [ahead sameLine, sym "[", g .type, sym "]"]⟩]

/-! ## Compound types -/

/-- The type of functions. -/
def functionType (g : Grammar) : Fragment :=
  node .functionType (seq [opt (typeParameters g), formalParameters g, sym "=>",
    alt [asserts g, typePredicate g, g .type]])

/-- The type of constructors. -/
def constructorType (g : Grammar) : Fragment :=
  node .constructorType (seq [opt (word "abstract"), word "new", opt (typeParameters g),
    formalParameters g, sym "=>", g .type])

/-- A type to be found by matching, with its optional bound. -/
def inferredType (g : Grammar) : Fragment :=
  node .inferType (seq [word "infer", typeIdentifier, opt (seq [word "extends", g .type])])

/-- The names of a type's members, or the type itself. -/
def keysType (g : Grammar) : Fragment :=
  alt [node .indexTypeQuery (seq [word "keyof", g .keysType]), indexedType g]

/-- An operand of an intersection. -/
def typeOperand (g : Grammar) : Fragment :=
  alt [functionType g, constructorType g, inferredType g,
    node .readonlyType (seq [word "readonly", g .type]),
    g .keysType]

/-- Operands joined by a mark, from the left; the mark may also stand before the
    first. -/
def joinedTypes (kind : Kind) (mark : String) (operand : Fragment) : Fragment :=
  chain (alt [node kind (seq [sym mark, operand]), operand])
    [⟨kind, none, seq [sym mark, operand]⟩]

/-- A union of intersections. -/
def unionType (g : Grammar) : Fragment :=
  joinedTypes .unionType "|" (joinedTypes .intersectionType "&" (typeOperand g))

/-- A type. -/
def type (g : Grammar) : Fragment :=
  chainOnce (unionType g)
    [⟨.conditionalType, none,
      seq [word "extends", unionType g, sym "?", g .type, sym ":", g .type]⟩]

end ComponentDecl.Syntax
