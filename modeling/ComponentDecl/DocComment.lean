import ComponentDecl.Text.Lines
import ComponentDecl.Text.Blank

/-! # Doc comments

    How a description becomes a block comment: one line for each line of the
    description, between an opening and a closing line.  A description that is
    such a block already is only indented anew. -/

namespace ComponentDecl.DocComment

/-- Holds of a description that is a block comment already. -/
def isBlock (description : String) : Bool :=
  let stripped := (Text.strip description).toList
  "/**".toList.isPrefixOf stripped && "*/".toList.isSuffixOf stripped

/-- The lines of a block with one line each stripped and its asterisks one
    column in. -/
def blockLines (description : String) : List String :=
  match (Text.lines (Text.strip description)).map Text.strip with
  | [] => []
  | first :: rest =>
    first :: rest.map fun line => if line.toList.head? == some '*' then " " ++ line else line

/-- The lines of a block made of a plain description. -/
def plainLines (description : String) : List String :=
  let content := match Text.lines (Text.stripLineFeeds description) with
    | [] => [""]
    | ls => ls
  let body := content.map fun line =>
    let line := Text.stripEnd line
    if line.isEmpty then " *" else " * " ++ line
  "/**" :: body ++ [" */"]

/-- A description as a block comment, each line after an indentation.  There is
    no line break at the end. -/
def render (description : String) (indent : String) : String :=
  let ls := if isBlock description then blockLines description else plainLines description
  Text.joinLines (ls.map (indent ++ ·))

end ComponentDecl.DocComment
