/-! # Raw values

    What comes in from outside before it is checked: texts, numbers, lists and
    tables, whatever the format they are written in. -/

namespace ComponentDecl

/-- A value that has not been checked yet. -/
inductive Raw where
  | null
  | bool (b : Bool)
  | int (i : Int)
  | float (f : Float)
  | text (s : String)
  /-- A date, a time, or both. -/
  | moment
  | list (values : List Raw)
  | table (entries : List (String × Raw))
  deriving Inhabited

namespace Raw

/-- Gives a name a value in a table; a name already there keeps its place. -/
def put {α : Type} (entries : List (String × α)) (name : String) (value : α) :
    List (String × α) :=
  if entries.any (·.1 == name) then
    entries.map fun e => if e.1 == name then (name, value) else e
  else entries ++ [(name, value)]

/-- The value of a name in a table. -/
def lookup? {α : Type} (entries : List (String × α)) (name : String) : Option α :=
  (entries.find? (·.1 == name)).map (·.2)

/-- The entries of a table, where of several with one name the last value
    counts, at the place of the first. -/
def distinct {α : Type} (entries : List (String × α)) : List (String × α) :=
  entries.foldl (fun acc e => put acc e.1 e.2) []

end Raw

end ComponentDecl
