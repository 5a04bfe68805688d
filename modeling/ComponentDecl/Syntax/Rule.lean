import ComponentDecl.Syntax.Semicolon

/-! # Rules of the grammar

    The constructs that contain themselves, and the tokens that all other rules
    share.  A grammar says how each of these constructs is read; the rules take
    it as an argument and never call themselves. -/

namespace ComponentDecl.Syntax

/-- The constructs through which the grammar is recursive. -/
inductive Rule where
  /-- A type. -/
  | type
  /-- A primary type, perhaps after words that ask for its names. -/
  | keysType
  /-- An expression without commas. -/
  | expression
  /-- An operand of a binary operator. -/
  | operand
  /-- A value made by a constructor, or a primary expression. -/
  | constructed
  /-- The heritage and the members of a class. -/
  | classRest
  /-- A binding pattern. -/
  | pattern
  /-- A statement. -/
  | statement
  deriving DecidableEq, Repr

/-- A way to read each of the recursive constructs. -/
abbrev Grammar := Rule → Fragment

open Fragment

/-! ## Names -/

/-- A name that something is bound to or referred to by. -/
def identifier : Fragment := token .identifier Lexeme.name

/-- The name of a type. -/
def typeIdentifier : Fragment := token .typeIdentifier Lexeme.name

/-- The name of a member after a point. -/
def memberIdentifier : Fragment := token .propertyIdentifier Lexeme.word

/-- A private name. -/
def privateIdentifier : Fragment := token .privatePropertyIdentifier Lexeme.privateName

/-- Names joined by points, from the left. -/
def dottedName : Fragment :=
  chain identifier [⟨.nestedIdentifier, none, seq [sym ".", identifier]⟩]

/-! ## Literals -/

/-- A number. -/
def number : Fragment := token .numberLiteral Lexeme.number

/-- A string between two equal quotes. -/
def stringIn (quote : Char) : Fragment :=
  seq [lexeme .mark (Lexeme.exactly [quote]),
    many (alt [lexeme .stringFragment (Lexeme.stringChars quote),
      lexeme .escapeSequence Lexeme.escape]),
    lexeme .mark (Lexeme.exactly [quote])]

/-- A string in double or single quotes. -/
def string : Fragment := node .stringLiteral (alt [stringIn '"', stringIn '\''])

/-! ## Names of members -/

/-- The name of a member: a word, a private name, a string, a number or a
    computed name in brackets. -/
def propertyName (g : Grammar) : Fragment :=
  alt [memberIdentifier, privateIdentifier, string, number,
    node .computedPropertyName (seq [sym "[", g .expression, sym "]"])]

/-- Holds where the name of a member starts on the same line. -/
def memberStarts (s : List Char) : Bool :=
  match (s.dropWhile fun c => Lexeme.isSpace c && c != '\n') with
  | [] => false
  | c :: rest =>
    Lexeme.isNameChar c || "\"'#[\\*".toList.contains c ||
      (c == '/' && (rest.head? == some '*'))

/-- A word that modifies the member named after it. -/
def modifier (w : String) : Fragment := seq [word w, ahead memberStarts]

/-- A word that says who may use a member. -/
def accessibility : Fragment :=
  node .accessibilityModifier
    (seq [alt [modifier "public", modifier "private", modifier "protected"]])

/-- The word that marks a member which replaces an inherited one. -/
def overriding : Fragment := node .overrideModifier (modifier "override")

/-! ## Blocks -/

/-- Statements between braces. -/
def block (g : Grammar) : Fragment :=
  node .statementBlock
    (seq [sym "\x7b", many (g .statement), sym "\x7d", opt (omittedSemicolon .expression)])

end ComponentDecl.Syntax
