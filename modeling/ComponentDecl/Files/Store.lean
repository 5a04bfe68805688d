import ComponentDecl.Files.Path
import ComponentDecl.Text.Lines
import ComponentDecl.Text.Quoted
import ComponentDecl.Text.Utf8

/-! # Files

    The part of a file system that matters to the program: the bytes of the
    files and the directories there are. -/

namespace ComponentDecl

/-- A place in the file system: the names that lead to it from the current
    directory.  Names of the parent directory may stand at the start, and a slash
    starts a place that is found from the root. -/
abbrev Location := List String

/-- The path of a place. -/
def pathOf : Location → String
  | "/" :: names => "/" ++ "/".intercalate names
  | names => "/".intercalate names

/-- The place that one more segment of a path leads to.  The root has no parent,
    and what is above the current directory has no other name. -/
def enter (l : Location) (segment : String) : Location :=
  if Path.isIdle segment then l
  else if segment != ".." || l.all (· == "..") then l ++ [segment]
  else if l == ["/"] then l
  else l.dropLast

/-- The place that a path is followed from. -/
def startOf (path : String) : Location :=
  if (Path.rootOf path).isEmpty then [] else ["/"]

/-- The places that a path leads through. -/
def placesFrom (l : Location) : List String → List Location
  | [] => []
  | segment :: rest => enter l segment :: placesFrom (enter l segment) rest

/-- The places that a written path leads through. -/
def placesOf (path : String) : List Location :=
  placesFrom (startOf path) (Path.segments path)

/-- Files with their bytes, and directories. -/
structure Files where
  contents : List (Location × List UInt8)
  directories : List Location
  deriving DecidableEq, Repr

/-- Why a path leads to no file. -/
inductive PathFault where
  /-- Nothing is there. -/
  | absent
  /-- A name on the way is no directory. -/
  | blocked
  /-- A directory is there. -/
  | directory
  deriving DecidableEq, Repr

/-- A path at which no file can be read or written. -/
structure FileError where
  fault : PathFault
  path : String
  deriving DecidableEq, Repr

/-- The wording of a file error. -/
def FileError.message (e : FileError) : String :=
  let reason := match e.fault with
    | .absent => "[Errno 2] No such file or directory"
    | .blocked => "[Errno 20] Not a directory"
    | .directory => "[Errno 21] Is a directory"
  reason ++ ": " ++ Text.quoted e.path

/-- Why no text can be read from a file. -/
inductive ReadError where
  | file (e : FileError)
  | undecodable (e : Text.DecodeError)
  deriving DecidableEq, Repr

namespace Files

/-! ## What is where -/

/-- The bytes of the file at a place. -/
def bytesAt? (fs : Files) (l : Location) : Option (List UInt8) := fs.contents.lookup l

/-- Contents with new bytes at a place; a new place comes last. -/
def replaceAt (l : Location) (bytes : List UInt8) :
    List (Location × List UInt8) → List (Location × List UInt8)
  | [] => [(l, bytes)]
  | (file, old) :: rest =>
    if file = l then (file, bytes) :: rest else (file, old) :: replaceAt l bytes rest

theorem lookup_replaceAt_of_ne {l other : Location} (h : other ≠ l) (bytes : List UInt8)
    (contents : List (Location × List UInt8)) :
    (replaceAt l bytes contents).lookup other = contents.lookup other := by
  induction contents with
  | nil =>
    have : (other == l) = false := by simpa using h
    simp [replaceAt, List.lookup_cons, this]
  | cons entry rest ih =>
    obtain ⟨file, old⟩ := entry
    by_cases e : file = l
    · subst e
      have : (other == file) = false := by simpa using h
      simp [replaceAt, List.lookup_cons, this]
    · simp [replaceAt, e, List.lookup_cons, ih]

/-- Holds of the places that are directories whatever the files are. -/
def isAbove (l : Location) : Bool := l == ["/"] || l.all (· == "..")

/-- Holds of a directory: one that is listed, or one above a file. -/
def isDirectory (fs : Files) (l : Location) : Bool :=
  isAbove l || fs.directories.contains l ||
  fs.contents.any fun (file, _) => l.isPrefixOf file && l != file

/-- Follows the segments of a path from a place on. -/
def follow (fs : Files) : Location → List String → Except PathFault Location
  | l, [] => .ok l
  | l, segment :: rest =>
    if fs.isDirectory l then follow fs (enter l segment) rest
    else .error (if (fs.bytesAt? l).isSome then .blocked else .absent)

/-- The place that a written path leads to. -/
def locate (fs : Files) (path : String) : Except PathFault Location :=
  if path.isEmpty then .error .absent
  else follow fs (startOf path) (Path.segments path)

/-- What stands at the end of a written path. -/
def find (fs : Files) (path : String) : Except PathFault (List UInt8) :=
  match fs.locate path with
  | .error fault => .error fault
  | .ok l =>
    match fs.bytesAt? l with
    | some bytes => .ok bytes
    | none => .error (if fs.isDirectory l then .directory else .absent)

/-- Holds of a path at which a file stands. -/
def isFile (fs : Files) (path : String) : Bool := (fs.find path).isOk

/-! ## Reading and writing -/

/-- The text of a file, with every line break as a line feed. -/
def readText (fs : Files) (path : String) : Except ReadError String :=
  match fs.find path with
  | .error fault => .error (.file ⟨fault, path⟩)
  | .ok bytes =>
    match Text.decodeChars bytes with
    | .error e => .error (.undecodable e)
    | .ok cs => .ok (String.ofList (Text.unifyLineFeeds cs))

/-- The files with new bytes at a place. -/
def put (fs : Files) (l : Location) (bytes : List UInt8) : Files :=
  { fs with contents := replaceAt l bytes fs.contents }

theorem bytesAt?_put_of_ne {l other : Location} (h : other ≠ l) (fs : Files)
    (bytes : List UInt8) : (fs.put l bytes).bytesAt? other = fs.bytesAt? other :=
  lookup_replaceAt_of_ne h bytes fs.contents

/-- The files after a text was written to a path. -/
def writeText (fs : Files) (path text : String) : Except FileError Files :=
  match fs.locate path with
  | .error fault => .error ⟨fault, path⟩
  | .ok l =>
    if fs.isDirectory l then .error ⟨.directory, path⟩
    else .ok (fs.put l (Text.encode text))

end Files

end ComponentDecl
