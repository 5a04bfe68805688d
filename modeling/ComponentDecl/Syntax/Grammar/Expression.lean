import ComponentDecl.Syntax.Grammar.Type

/-! # Expressions

    Values: literals, functions, classes, calls and operators.  Operators are
    read level by level, from the loosest to the tightest. -/

namespace ComponentDecl.Syntax

open Fragment

/-! ## Class members -/

/-- A method with a body. -/
def methodDefinition (g : Grammar) : Fragment :=
  node .methodDefinition (seq [
    opt accessibility, opt (modifier "static"), opt overriding, opt (modifier "readonly"),
    opt (modifier "async"), opt (alt [modifier "get", modifier "set", sym "*"]),
    role .name (propertyName g), opt (sym "?"), callSignature g, role .body (block g)])

/-- A method that a derived class has to define. -/
def abstractMethodSignature (g : Grammar) : Fragment :=
  node .abstractMethodSignature (seq [
    opt accessibility, modifier "abstract", opt overriding,
    opt (alt [modifier "get", modifier "set", sym "*"]),
    role .name (propertyName g), opt (sym "?"), callSignature g])

/-- A field of a class. -/
def fieldDefinition (g : Grammar) : Fragment :=
  node .publicFieldDefinition (seq [
    many (decorator g),
    many (alt [accessibility, overriding,
      alt (["declare", "static", "readonly", "abstract", "accessor"].map modifier)]),
    role .name (propertyName g), opt (alt [sym "?", sym "!"]), annotated g, initialValue g])

/-- One member of a class, with what ends it. -/
def classMember (g : Grammar) : Fragment :=
  alt [
    sym ";",
    node .classStaticBlock (seq [word "static", role .body (block g)]),
    seq [many (decorator g), methodDefinition g, opt (semicolon .signature)],
    seq [alt [abstractMethodSignature g, indexSignature g, methodSignature g, fieldDefinition g],
      alt [semicolon .signature, sym ","]]]

/-- The members of a class between braces. -/
def classBody (g : Grammar) : Fragment :=
  node .classBody (seq [sym "\x7b", many (classMember g), sym "\x7d"])

/-! ## Literals -/

/-- Text of a template and values put into it. -/
def templateString (g : Grammar) : Fragment :=
  node .templateString (seq [lexeme .mark (Lexeme.exactly ['\x60']),
    many (alt [lexeme .stringFragment Lexeme.templateChars,
      lexeme .escapeSequence Lexeme.escape,
      node .templateSubstitution
        (seq [lexeme .mark (Lexeme.exactly ['$', '\x7b']), g .expression, sym "\x7d"])]),
    lexeme .mark (Lexeme.exactly ['\x60'])])

/-- A regular expression. -/
def regex : Fragment :=
  node .regex (seq [lexeme .mark (Lexeme.exactly ['/']),
    lexeme .regexPattern Lexeme.regexPattern, lexeme .mark (Lexeme.exactly ['/']),
    opt (lexeme .regexFlags Lexeme.regexFlags)])

/-- The value that a list takes over from another one. -/
def spreadElement (g : Grammar) : Fragment :=
  node .spreadElement (seq [sym "...", g .expression])

/-- One member of an object. -/
def objectMember (g : Grammar) : Fragment :=
  alt [
    node .pair (seq [propertyName g, sym ":", role .value (g .expression)]),
    spreadElement g,
    methodDefinition g,
    chainOnce (token .shorthandPropertyIdentifier Lexeme.name)
      [⟨.objectAssignmentPattern, none, seq [symUnless "=" ["=", ">"], g .expression]⟩]]

/-- Arguments in parentheses. -/
def arguments (g : Grammar) : Fragment :=
  node .arguments (seq [sym "(", opt (commaList (alt [spreadElement g, g .expression])), sym ")"])

/-- Expressions joined by commas. -/
def sequence (g : Grammar) : Fragment :=
  chainOnce (g .expression)
    [⟨.sequenceExpression, none, seq [sym ",", sepBy (sym ",") (g .expression)]⟩]

/-- An expression in parentheses. -/
def parenthesized (g : Grammar) : Fragment :=
  node .parenthesizedExpression
    (seq [sym "(", sequence g, annotated g, sym ")"])

/-! ## Primary expressions -/

/-- A name that is not the word for an absent value. -/
def valueName : Fragment :=
  alt [namedWord .undefinedLiteral "undefined", identifier]

/-- A function without a place of its own among the declarations. -/
def functionExpression (g : Grammar) : Fragment :=
  alt [
    node .functionExpression (seq [opt (modifier "async"), word "function",
      opt (role .name identifier), callSignature g, role .body (block g)]),
    node .generatorFunction (seq [opt (modifier "async"), word "function", sym "*",
      opt (role .name identifier), callSignature g, role .body (block g)])]

/-- A literal, a name, or anything between marks of its own. -/
def primary (g : Grammar) : Fragment :=
  alt [
    parenthesized g,
    namedWord .thisReference "this",
    namedWord .superReference "super",
    number,
    string,
    templateString g,
    regex,
    namedWord .trueLiteral "true",
    namedWord .falseLiteral "false",
    namedWord .nullLiteral "null",
    node .objectLiteral
      (seq [sym "\x7b", opt (commaList (objectMember g)), sym "\x7d"]),
    node .arrayLiteral
      (seq [sym "[", many (alt [sym ",", spreadElement g, g .expression]), sym "]"]),
    functionExpression g,
    node .classExpression (seq [many (decorator g), word "class",
      opt (seq [ahead (fun s => !startsHeritage s), role .name typeIdentifier]),
      opt (typeParameters g), g .classRest]),
    node .metaProperty
      (alt [seq [word "new", sym ".", word "target"], seq [word "import", sym ".", word "meta"]]),
    namedWord .importCall "import",
    privateIdentifier,
    valueName]
where
  /-- Holds where a class goes on with its heritage instead of its name. -/
  startsHeritage (s : List Char) : Bool :=
    let word := s.dropWhile Lexeme.isSpace
    (Lexeme.exactWord "implements".toList word).isSome

/-- The ways a primary expression goes on: members, indices and calls. -/
def suffixes (g : Grammar) : List Step :=
  let optionalChain := node .optionalChain (symUnless "?." ["0", "1", "2", "3", "4", "5", "6", "7",
    "8", "9"])
  [⟨.memberExpression, none,
      seq [alt [optionalChain, symUnless "." ["."]], alt [privateIdentifier, memberIdentifier]]⟩,
   ⟨.subscriptExpression, none,
      seq [opt optionalChain, sym "[", sequence g, sym "]"]⟩,
   ⟨.callExpression, none,
      seq [opt optionalChain, opt (role .typeArguments (typeArguments g)),
        alt [arguments g, spaced (templateString g)]]⟩,
   ⟨.nonNullExpression, none, seq [ahead sameLine, symUnless "!" ["="]]⟩]

/-- Type arguments given to a value that is not called. -/
def instantiated (g : Grammar) (followers : List Char) : Step :=
  ⟨.instantiationExpression, none,
    seq [role .typeArguments (typeArguments g), ahead fun s =>
      match s.dropWhile Lexeme.isSpace with
      | [] => followers.contains ';'
      | c :: _ => followers.contains c]⟩

/-- The bases of a class and what it implements. -/
def heritage (g : Grammar) (bases : Fragment) : Fragment :=
  let implements :=
    node .implementsClause (seq [word "implements", sepBy (sym ",") (g .type)])
  node .classHeritage (alt [
    seq [node .extendsClause (seq [word "extends", sepBy (sym ",") bases]), opt implements],
    implements])

/-- The heritage and the members of a class. -/
def classRest (g : Grammar) : Fragment :=
  let base := chain (primary g) (suffixes g ++ [instantiated g ['.']])
  seq [
    opt (heritage g (seq [role .value base, opt (role .typeArguments (typeArguments g))])),
    role .body (classBody g)]

/-- A value made by a constructor, or a primary expression. -/
def constructed (g : Grammar) : Fragment :=
  alt [
    node .newExpression (seq [word "new",
      chain (g .constructed) ((suffixes g).filter fun step => step.kind != .callExpression),
      opt (role .typeArguments (typeArguments g)), opt (arguments g)]),
    primary g]

/-- A primary expression or a new instance with all that follows it. -/
def postfixed (g : Grammar) : Fragment :=
  chain (g .constructed)
    (suffixes g ++ [instantiated g [')', ']', ',', ';', ':', '\x7d', '.']])

/-! ## Operators -/

/-- An operand of a binary operator: a value, perhaps with an operator of its
    own before or after it. -/
def operand (g : Grammar) : Fragment :=
  alt [
    node .updateExpression (seq [alt [sym "++", sym "--"], g .operand]),
    node .unaryExpression
      (seq [alt [sym "!", sym "~", sym "-", sym "+", anyWord ["typeof", "void", "delete"]],
        g .operand]),
    node .awaitExpression (seq [modifier "await", g .operand]),
    node .typeAssertion (seq [typeArguments g, g .operand]),
    chainOnce (postfixed g)
      [⟨.updateExpression, none, seq [ahead sameLine, alt [sym "++", sym "--"]]⟩]]

/-- The operators that bind tighter than comparisons, level by level. -/
def arithmeticLevels : List Fragment :=
  [ symUnless "**" ["="],
    alt [symUnless "*" ["=", "*"], symUnless "/" ["="], symUnless "%" ["="]],
    alt [symUnless "+" ["=", "+"], symUnless "-" ["=", "-"]],
    alt [symUnless ">>>" ["="], symUnless ">>" ["=", ">"], symUnless "<<" ["="]] ]

/-- The operators that compare by order or membership. -/
def relationalLevel : Fragment :=
  alt [sym "<=", sym ">=", symUnless "<" ["<"], symUnless ">" [">"],
    anyWord ["instanceof", "in"]]

/-- The operators that bind looser than comparisons, level by level. -/
def logicalLevels : List Fragment :=
  [ alt [sym "===", sym "!==", symUnless "==" ["="], symUnless "!=" ["="]],
    symUnless "&" ["=", "&"],
    symUnless "^" ["="],
    symUnless "|" ["=", "|"],
    symUnless "&&" ["="],
    alt [symUnless "||" ["="], symUnless "??" ["="]] ]

/-- Operands joined by the operators of one level, from the left. -/
def joined (operand operator : Fragment) (others : List Step) : Fragment :=
  chain operand (⟨.binaryExpression, none, seq [operator, operand]⟩ :: others)

/-- Operands joined by the operators of all levels.  A value is read as another
    type at the level of comparisons. -/
def binary (g : Grammar) : Fragment :=
  let casts := [
    ⟨.asExpression, none,
      seq [ahead sameLine, word "as", alt [namedWord .mark "const", g .type]]⟩,
    ⟨.satisfiesExpression, none, seq [ahead sameLine, word "satisfies", g .type]⟩]
  let arithmetic := arithmeticLevels.foldl (joined · · []) (g .operand)
  logicalLevels.foldl (joined · · []) (joined arithmetic relationalLevel casts)

/-- A function written as parameters and an arrow. -/
def arrowFunction (g : Grammar) : Fragment :=
  node .arrowFunction (seq [opt (seq [modifierBeforeParameters, ahead sameLine]),
    alt [identifier, callSignature g], sym "=>",
    role .body (alt [block g, g .expression])])
where
  /-- The word that makes a function asynchronous. -/
  modifierBeforeParameters : Fragment := word "async"

/-- The operators that combine a value with the one already held. -/
def augmentedOperators : Fragment :=
  alt (["+=", "-=", "*=", "/=", "%=", "^=", "&=", "|=", ">>=", ">>>=", "<<=", "**=", "&&=",
    "||=", "??="].map sym)

/-- An expression without commas. -/
def expression (g : Grammar) : Fragment :=
  alt [
    arrowFunction g,
    node .yieldExpression
      (seq [word "yield", opt (seq [ahead sameLine, opt (sym "*"), g .expression])]),
    chainOnce (binary g)
      [⟨.ternaryExpression, none, seq [symUnless "?" ["?"], alt [
          seq [g .expression, sym ":", g .expression],
          seq [binary g, sym ":", g .expression]]]⟩,
       ⟨.assignmentExpression, none, seq [symUnless "=" ["=", ">"], g .expression]⟩,
       ⟨.augmentedAssignmentExpression, none, seq [augmentedOperators, g .expression]⟩]]

end ComponentDecl.Syntax
