import ComponentDecl.Syntax.Fragment

/-! # Semicolons that may be left out

    A statement may end without a semicolon at the end of the text, before a
    closing brace, or at a line break, unless the next line goes on with the
    statement.  Comments that follow on the same line belong to the statement
    when such an end comes after them. -/

namespace ComponentDecl.Syntax

/-- What stands before the place where a semicolon may be left out. -/
inductive Ending where
  | type
  | expression
  | signature
  deriving DecidableEq, Repr

namespace Ending

/-- The text after white space and comments, or nothing at a slash that starts
    no comment; `fuel` has a character for each comment. -/
def skipLines : List Char → List Char → Option (List Char)
  | [], s => some s
  | _ :: fuel, s =>
    match s.dropWhile Lexeme.isBreakingSpace with
    | '/' :: '/' :: rest => skipLines fuel (rest.dropWhile (· != '\n'))
    | '/' :: '*' :: rest =>
      match Lexeme.blockCommentRest rest with
      | some n => skipLines fuel (rest.drop n)
      | none => some []
    | '/' :: _ => none
    | rest => some rest

/-- Holds where a word of letters ends. -/
def wordEnds : List Char → Bool
  | [] => true
  | c :: _ => !(Lexeme.isNameChar c && !Lexeme.isDigit c && c != '_' && c != '$')

/-- Holds of the start of a line that begins a statement of its own. -/
def startsAfresh (e : Ending) : List Char → Bool
  | [] => true
  | '+' :: rest => rest.head? == some '+'
  | '-' :: rest => rest.head? == some '-'
  | '!' :: rest => rest.head? != some '='
  | 'i' :: 'n' :: rest =>
    let operator := "stanceof".toList
    if wordEnds rest then false
    else !(operator.isPrefixOf rest && wordEnds (rest.drop operator.length))
  | c :: _ =>
    if "\x60,.;*%><=?^|&/:".toList.contains c then false
    else if c == '\x7b' then e != .signature
    else if c == '(' || c == '[' then e != .expression
    else true

/-- Holds where a statement may end without a semicolon. -/
def isReached (e : Ending) : List Char → Bool
  | [] => true
  | c :: rest =>
    if c == '\x7d' then
      (rest.dropWhile Lexeme.isBreakingSpace).head? != some ':' || e == .expression
    else if c == '\n' then
      match skipLines (c :: rest) rest with
      | none => false
      | some next => startsAfresh e next
    else Lexeme.isBreakingSpace c && isReached e rest

end Ending

namespace Fragment

/-- Reads comments up to a place where a statement may end without a semicolon,
    at most one for each character of `fuel`. -/
def omittedWithin (e : Ending) : List Char → Fragment
  | [], s => ahead (Ending.isReached e) s
  | _ :: fuel, s =>
    alt [ahead (Ending.isReached e),
      seq [opt (lexeme .blank Lexeme.space), lexeme .comment Lexeme.comment,
        omittedWithin e fuel]] s

/-- A semicolon that is left out. -/
def omittedSemicolon (e : Ending) : Fragment := fun s => omittedWithin e s s

/-- A semicolon, written or left out. -/
def semicolon (e : Ending) : Fragment := alt [sym ";", omittedSemicolon e]

end Fragment

end ComponentDecl.Syntax
