import ComponentDecl.Files.Store
import ComponentDecl.Raw.CheckComments

/-! # Comments files

    The recovered comments of a module stand in a JSON file: one that was named,
    or one beside the module, which may be missing. -/

namespace ComponentDecl

/-- Why the comments of a module cannot be loaded. -/
inductive CommentsFileError where
  /-- The file has no text. -/
  | unreadable (e : ReadError)
  /-- The file holds no comments. -/
  | invalid (file : String) (issues : List Issue)
  deriving DecidableEq, Repr

namespace CommentsFile

/-- How the name of a comments file continues the name of its module. -/
def ending : String := ".comments.json"

/-- The comments file beside a module. -/
def pathFor (module : String) : String :=
  ((Path.ofString module).beside ending).toString

/-- A count of issues in words. -/
def countOfIssues (n : Nat) : String :=
  s!"{n} validation error" ++ (if n == 1 then "" else "s")

/-- The headline of a report on a file without comments. -/
def invalidMessage (file : String) (issues : List Issue) : String :=
  s!"Invalid comments file {file}: {countOfIssues issues.length} for JSDocResults"

/-- Reads a comments file. -/
def read (fs : Files) (file : String) : Except CommentsFileError Comments :=
  match fs.readText file with
  | .error e => .error (.unreadable e)
  | .ok text => (Comments.ofJson text).mapError fun issues => .invalid file issues

/-- The comments for a module, from a named file or else from the file beside
    it. -/
def load (fs : Files) (module : String) (named : Option String) :
    Except CommentsFileError (Option Comments) :=
  match named with
  | some file => (read fs (plainPath file)).map some
  | none =>
    let file := pathFor module
    if fs.isFile file then (read fs file).map some else .ok none

end CommentsFile

end ComponentDecl
