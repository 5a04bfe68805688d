import ComponentDecl.Comments
import ComponentDecl.Raw.Issue
import ComponentDecl.Raw.Json

/-! # Checking recovered comments

    From a raw table to recovered comments.  The description has two names, of
    which the first one given counts; other names are ignored. -/

namespace ComponentDecl.Comments

/-- The names of the description, the one that counts first. -/
def descriptionNames : List String := ["componentDescription", "component_description"]

/-- Checks that a value is a text. -/
def checkText (place : List String) : Raw → Checked String
  | .text s => .ok s
  | _ => .error [⟨place, .notText⟩]

/-- Checks the description, which may be missing. -/
def checkDescription (entries : List (String × Raw)) : Checked (Option String) :=
  let given := descriptionNames.findSome? fun name =>
    (Raw.lookup? entries name).map fun value => (name, value)
  match given with
  | .none | some (_, .null) => .ok .none
  | some (name, value) => (checkText [name] value).map some

/-- Checks the comments of props one by one. -/
def checkProps : List (String × Raw) → Checked (List (String × String))
  | [] => .ok []
  | (name, value) :: rest =>
    ((checkText ["props", name] value).both (checkProps rest)).map fun (doc, docs) =>
      (name, doc) :: docs

/-- Checks the table of the comments of props, which may be missing. -/
def checkPropTable (origin : Origin) (entries : List (String × Raw)) :
    Checked (List (String × String)) :=
  match Raw.lookup? entries "props" with
  | .none => .ok []
  | some (.table props) => checkProps props
  | some _ => .error [⟨["props"], .notTable origin⟩]

/-- Checks recovered comments. -/
def check (origin : Origin) : Raw → Checked Comments
  | .table entries =>
    ((checkDescription entries).both (checkPropTable origin entries)).map fun (d, ps) => ⟨d, ps⟩
  | _ => .error [⟨[], .notComments origin⟩]

/-- How deep lists and objects may be nested in a comments file. -/
def maxDepth : Nat := 200

/-- Reads and checks recovered comments written in JSON. -/
def ofJson (s : String) : Checked Comments :=
  match Raw.Json.readWithin? maxDepth s with
  | .none => .error [⟨[], .unreadableJson⟩]
  | some value => check .json value

end ComponentDecl.Comments
