import ComponentDecl.Syntax.Rule

/-! # Binding patterns and parameters

    What may stand on the left of a binding, and the parameter lists of
    functions, methods and function types. -/

namespace ComponentDecl.Syntax

open Fragment

/-! ## Annotations and initial values -/

/-- A colon and a type. -/
def typeClause (g : Grammar) : Fragment :=
  node .typeClause (seq [sym ":", g .type])

/-- An optional colon and type, in the role of a type. -/
def annotated (g : Grammar) : Fragment := opt (role .type (typeClause g))

/-- An optional initial value. -/
def initialValue (g : Grammar) : Fragment :=
  opt (seq [symUnless "=" ["=", ">"], role .value (g .expression)])

/-! ## Patterns -/

/-- A pattern that takes all that is left. -/
def restPattern (g : Grammar) : Fragment :=
  node .restPattern (seq [sym "...", g .pattern])

/-- A pattern, perhaps with a default value. -/
def patternWithDefault (g : Grammar) : Fragment :=
  chainOnce (g .pattern)
    [⟨.assignmentPattern, none, seq [symUnless "=" ["=", ">"], g .expression]⟩]

/-- One member of an object pattern. -/
def memberPattern (g : Grammar) : Fragment :=
  alt [restPattern g,
    node .pairPattern (seq [propertyName g, sym ":", patternWithDefault g]),
    chainOnce (token .shorthandPropertyIdentifierPattern Lexeme.name)
      [⟨.objectAssignmentPattern, none, seq [symUnless "=" ["=", ">"], g .expression]⟩]]

/-- A binding pattern: a name, or names picked from an object or an array. -/
def pattern (g : Grammar) : Fragment :=
  alt [identifier,
    node .objectPattern (seq [sym "\x7b", opt (commaList (memberPattern g)), sym "\x7d"]),
    node .arrayPattern (seq [sym "[",
      many (alt [sym ",", restPattern g, patternWithDefault g]), sym "]"])]

/-! ## Parameters -/

/-- A decorator: a name, a member or a call after an at sign. -/
def decorator (g : Grammar) : Fragment :=
  node .decorator (seq [sym "@",
    chain (alt [identifier, node .parenthesizedExpression (seq [sym "(", g .expression, sym ")"])])
      [⟨.memberExpression, none, seq [sym ".", memberIdentifier]⟩,
       ⟨.callExpression, none,
        node .arguments (seq [sym "(", opt (commaList (g .expression)), sym ")"])⟩]])

/-- What a parameter binds, with the words before it. -/
def parameterTarget (g : Grammar) : Fragment :=
  seq [many (decorator g), opt accessibility, opt overriding, opt (modifier "readonly"),
    alt [token .thisReference (Lexeme.exactWord "this".toList), restPattern g, g .pattern]]

/-- One parameter. -/
def parameter (g : Grammar) : Fragment :=
  alt [node .optionalParameter (seq [parameterTarget g, sym "?", annotated g, initialValue g]),
    node .requiredParameter (seq [parameterTarget g, annotated g, initialValue g])]

/-- Parameters in parentheses. -/
def formalParameters (g : Grammar) : Fragment :=
  node .formalParameters (seq [sym "(", opt (commaList (parameter g)), sym ")"])

/-! ## Type parameters and arguments -/

/-- One type parameter with its bound and its default. -/
def typeParameter (g : Grammar) : Fragment :=
  node .typeParameter (seq [opt (modifier "const"), opt (modifier "in"), opt (modifier "out"),
    role .name typeIdentifier,
    opt (node .constraint (seq [alt [word "extends", sym ":"], g .type])),
    opt (role .value (node .defaultType (seq [sym "=", g .type])))])

/-- Type parameters in angle brackets. -/
def typeParameters (g : Grammar) : Fragment :=
  node .typeParameters (seq [sym "<", commaList (typeParameter g), sym ">"])

/-- Type arguments in angle brackets. -/
def typeArguments (g : Grammar) : Fragment :=
  node .typeArguments (seq [sym "<", commaList (g .type), sym ">"])

/-! ## Signatures -/

/-- The statement that a parameter has a type. -/
def typePredicate (g : Grammar) : Fragment :=
  node .typePredicate
    (seq [alt [token .thisReference (Lexeme.exactWord "this".toList), identifier], word "is",
      g .type])

/-- The statement that a parameter holds or has a type. -/
def asserts (g : Grammar) : Fragment :=
  node .asserts (seq [word "asserts",
    alt [typePredicate g, token .thisReference (Lexeme.exactWord "this".toList), identifier]])

/-- What a function returns, after its parameters. -/
def returnClause (g : Grammar) : Fragment :=
  alt [node .assertsClause (seq [sym ":", asserts g]),
    node .typePredicateClause (seq [sym ":", typePredicate g]),
    typeClause g]

/-- Type parameters, parameters and return type of a function. -/
def callSignature (g : Grammar) : Fragment :=
  seq [opt (typeParameters g), formalParameters g, opt (returnClause g)]

end ComponentDecl.Syntax
