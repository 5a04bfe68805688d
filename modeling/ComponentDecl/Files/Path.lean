/-! # Paths

    A path names a file by the directories that lead to it.  Segments that stay
    where they are do not count, so that one path can be written in several
    ways. -/

namespace ComponentDecl

/-- A path: the slashes it starts with, none for one from the current directory,
    and its names. -/
structure Path where
  root : String
  names : List String
  deriving DecidableEq, Repr

namespace Path

/-- The segments of a text between its slashes. -/
def segmentsFrom (segment : List Char) : List Char → List String
  | [] => [String.ofList segment.reverse]
  | c :: rest =>
    if c == '/' then String.ofList segment.reverse :: segmentsFrom [] rest
    else segmentsFrom (c :: segment) rest

/-- The segments of a written path. -/
def segments (s : String) : List String := segmentsFrom [] s.toList

/-- Holds of the segments that stay where they are. -/
def isIdle (segment : String) : Bool := segment.isEmpty || segment == "."

/-- The slashes at the start of a path: two stay two, and any other number means
    one. -/
def rootOf (s : String) : String :=
  match (s.toList.takeWhile (· == '/')).length with
  | 0 => ""
  | 2 => "//"
  | _ => "/"

/-- The path that a text spells. -/
def ofString (s : String) : Path :=
  ⟨rootOf s, (segments s).filter fun n => !isIdle n⟩

/-- The text of a path in its plain form. -/
def toString (p : Path) : String :=
  if p.root.isEmpty && p.names.isEmpty then "." else p.root ++ "/".intercalate p.names

/-- The path of a file beside another one, whose name continues the other's. -/
def beside (p : Path) (ending : String) : Path :=
  match p.names.reverse with
  | [] => { p with names := [ending] }
  | name :: above => { p with names := (((name ++ ending) :: above)).reverse }

end Path

/-- The plain form of a written path. -/
def plainPath (s : String) : String := (Path.ofString s).toString

end ComponentDecl
