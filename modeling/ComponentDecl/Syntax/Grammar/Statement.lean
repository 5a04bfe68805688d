import ComponentDecl.Syntax.Grammar.Declaration

/-! # Statements

    Imports, exports and the statements of the language.  A namespace that is
    neither exported nor declared counts as an expression when its semicolon is
    left out. -/

namespace ComponentDecl.Syntax

open Fragment

/-! ## Imports -/

/-- The name of a module after the word for its origin. -/
def fromClause (g : Grammar) : Fragment :=
  seq [word "from", string,
    opt (node .importAttribute (seq [anyWord ["with", "assert"],
      node .objectLiteral (seq [sym "\x7b", opt (commaList (objectMember g)), sym "\x7d"])]))]

/-- The name that something has in another module. -/
def moduleExportName : Fragment := alt [token .identifier Lexeme.word, string]

/-- One imported name. -/
def importSpecifier : Fragment :=
  let target := alt [
    seq [role .name moduleExportName, word "as", identifier],
    role .name identifier]
  node .importSpecifier (alt [seq [anyWord ["type", "typeof"], target], target])

/-- What an import brings in. -/
def importClause : Fragment :=
  let named := alt [
    node .namespaceImport (seq [sym "*", word "as", identifier]),
    node .namedImports (seq [sym "\x7b", opt (commaList importSpecifier), sym "\x7d"])]
  node .importClause (alt [named, seq [identifier, opt (seq [sym ",", named])]])

/-- An import. -/
def importStatement (g : Grammar) : Fragment :=
  let target := alt [
    seq [importClause, fromClause g],
    node .importRequireClause
      (seq [identifier, sym "=", word "require", sym "(", string, sym ")"])]
  node .importStatement (seq [word "import",
    alt [seq [anyWord ["type", "typeof"], target], target, string],
    semicolon .expression])

/-! ## Exports -/

/-- One exported name. -/
def exportSpecifier : Fragment :=
  let target := seq [role .name moduleExportName, opt (seq [word "as", moduleExportName])]
  node .exportSpecifier (alt [seq [anyWord ["type", "typeof"], target], target])

/-- Exported names between braces. -/
def exportClause : Fragment :=
  node .exportClause (seq [sym "\x7b", opt (commaList exportSpecifier), sym "\x7d"])

/-- An export: of a declaration, of a value as the module's own, or of names. -/
def exportStatement (g : Grammar) : Fragment :=
  let origin := fromClause g
  let ends := semicolon .expression
  let all := alt [
    seq [sym "*", origin],
    seq [node .namespaceExport (seq [sym "*", word "as", moduleExportName]), origin]]
  node .exportStatement (seq [many (decorator g), word "export",
    alt [
      seq [word "default", alt [
        role .declaration (declaration g),
        seq [role .value (g .expression), ends]]],
      seq [word "type", alt [seq [exportClause, opt origin], all], ends],
      role .declaration (declaration g),
      seq [all, ends],
      seq [exportClause, opt origin, ends],
      seq [sym "=", g .expression, ends],
      seq [word "as", word "namespace", identifier, ends]]])

/-! ## Control -/

/-- A condition in parentheses. -/
def condition (g : Grammar) : Fragment := parenthesized g

/-- The head of a counting loop, between its parentheses. -/
def forHead (g : Grammar) : Fragment :=
  let empty := node .emptyStatement (sym ";")
  seq [
    alt [lexicalDeclaration g, variableDeclaration g, seq [sequence g, sym ";"], empty],
    alt [seq [sequence g, sym ";"], empty],
    opt (sequence g)]

/-- The head of a loop over members, between its parentheses. -/
def forInHead (g : Grammar) : Fragment :=
  seq [opt (anyWord ["const", "let", "var"]), g .pattern, anyWord ["of", "in"], sequence g]

/-- A statement that decides, repeats or leaves. -/
def controlStatement (g : Grammar) : Fragment :=
  let statement := g .statement
  let ends := semicolon .expression
  let label := token .statementIdentifier Lexeme.name
  alt [
    node .ifStatement (seq [word "if", condition g, statement,
      opt (node .elseClause (seq [word "else", statement]))]),
    node .forStatement (seq [word "for", sym "(", forHead g, sym ")", role .body statement]),
    node .forInStatement (seq [word "for", opt (word "await"), sym "(", forInHead g, sym ")",
      role .body statement]),
    node .whileStatement (seq [word "while", condition g, role .body statement]),
    node .doStatement (seq [word "do", role .body statement, word "while", condition g,
      opt ends]),
    node .switchStatement (seq [word "switch", role .value (parenthesized g),
      role .body (node .switchBody (seq [sym "\x7b",
        many (alt [
          node .switchCase (seq [word "case", role .value (sequence g), sym ":", many statement]),
          node .switchDefault (seq [word "default", sym ":", many statement])]),
        sym "\x7d"]))]),
    node .tryStatement (seq [word "try", role .body (block g),
      opt (node .catchClause (seq [word "catch",
        opt (seq [sym "(", g .pattern, annotated g, sym ")"]), role .body (block g)])),
      opt (node .finallyClause (seq [word "finally", role .body (block g)]))]),
    node .withStatement (seq [word "with", parenthesized g, role .body statement]),
    node .breakStatement (seq [word "break", opt (seq [ahead sameLine, label]), ends]),
    node .continueStatement (seq [word "continue", opt (seq [ahead sameLine, label]), ends]),
    node .returnStatement (seq [word "return", opt (seq [ahead sameLine, sequence g]), ends]),
    node .throwStatement (seq [word "throw", sequence g, ends]),
    node .debuggerStatement (seq [word "debugger", ends]),
    node .labeledStatement (seq [label, sym ":", role .body statement])]

/-! ## All statements -/

/-- The words of the language that may also name a value. -/
def contextualWords : List String :=
  ["async", "declare", "export", "get", "let", "module", "namespace", "set", "static", "type"]

/-- A word of the language that stands on a line of its own: it names a value. -/
def lonelyWord : Fragment :=
  node .expressionStatement (seq [
    alt (contextualWords.map (namedWord .identifier)), omittedSemicolon .expression])

/-- A statement. -/
def statement (g : Grammar) : Fragment :=
  alt [
    lonelyWord,
    exportStatement g,
    node .expressionStatement (seq [internalModule g, omittedSemicolon .expression]),
    declaration g,
    importStatement g,
    block g,
    node .emptyStatement (sym ";"),
    controlStatement g,
    node .expressionStatement (seq [sequence g, semicolon .expression])]

end ComponentDecl.Syntax
