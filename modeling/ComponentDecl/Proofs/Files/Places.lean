import ComponentDecl.CommentsFile

/-! # Places of files

    Where a path leads depends on which places there are, and not on the bytes that
    stand at them.  So a file that is rewritten leaves every path where it led, and
    whatever is read from another place reads the same as before.

    Key theorems:
    - `SamePlaces.locate_eq`: a path leads to the same place
    - `SamePlaces.put`: rewriting a file keeps the places
    - `SamePlaces.load_eq`: comments are loaded as before unless their file was
      rewritten -/

namespace ComponentDecl

/-- The file that comments for a module are loaded from, if it is there. -/
def CommentsFile.fileFor (module : String) : Option String → String
  | some file => plainPath file
  | none => pathFor module

namespace Files

/-- Holds of files at the same places as others, with the same directories. -/
structure SamePlaces (fs fs' : Files) : Prop where
  directories : fs'.directories = fs.directories
  places : fs'.contents.map Prod.fst = fs.contents.map Prod.fst

theorem map_fst_replaceAt {l : Location} (bytes : List UInt8) {contents : List (Location × List UInt8)}
    (h : (contents.lookup l).isSome) :
    (replaceAt l bytes contents).map Prod.fst = contents.map Prod.fst := by
  induction contents with
  | nil => simp at h
  | cons entry rest ih =>
    obtain ⟨file, old⟩ := entry
    by_cases e : file = l
    · simp [replaceAt, e]
    · have e' : (l == file) = false := by simpa using fun he => e he.symm
      simp only [List.lookup_cons, e'] at h
      simp [replaceAt, e, ih h]

theorem isSome_lookup (l : Location) (contents : List (Location × List UInt8)) :
    (contents.lookup l).isSome = (contents.map Prod.fst).contains l := by
  induction contents with
  | nil => rfl
  | cons entry rest ih =>
    obtain ⟨file, bytes⟩ := entry
    simp only [List.lookup_cons, List.map_cons, List.contains_cons]
    cases l == file <;> simp only [ih, Bool.false_or, Bool.true_or, Option.isSome_some]

theorem isDirectory_eq (fs : Files) (l : Location) :
    fs.isDirectory l = (isAbove l || fs.directories.contains l ||
      (fs.contents.map Prod.fst).any fun file => l.isPrefixOf file && l != file) := by
  simp [isDirectory, List.any_map, Function.comp_def]

namespace SamePlaces

variable {fs fs' : Files} {l : Location} {path : String}

theorem refl (fs : Files) : SamePlaces fs fs := ⟨rfl, rfl⟩

theorem put (fs : Files) {l : Location} (h : (fs.bytesAt? l).isSome) (bytes : List UInt8) :
    SamePlaces fs (fs.put l bytes) := ⟨rfl, map_fst_replaceAt bytes h⟩

theorem isSome_bytesAt? (h : SamePlaces fs fs') (l : Location) :
    (fs'.bytesAt? l).isSome = (fs.bytesAt? l).isSome := by
  simp only [bytesAt?, isSome_lookup, h.places]

theorem isDirectory_eq (h : SamePlaces fs fs') (l : Location) :
    fs'.isDirectory l = fs.isDirectory l := by
  rw [Files.isDirectory_eq, Files.isDirectory_eq, h.directories, h.places]

theorem follow_eq (h : SamePlaces fs fs') (l : Location) (segments : List String) :
    fs'.follow l segments = fs.follow l segments := by
  induction segments generalizing l with
  | nil => rfl
  | cons segment rest ih =>
    simp only [follow, h.isDirectory_eq, h.isSome_bytesAt?, ih]

theorem locate_eq (h : SamePlaces fs fs') (path : String) : fs'.locate path = fs.locate path := by
  simp only [locate, h.follow_eq]

/-! ## Reading -/

theorem find_eq (h : SamePlaces fs fs')
    (hb : ∀ l, fs.locate path = .ok l → fs'.bytesAt? l = fs.bytesAt? l) :
    fs'.find path = fs.find path := by
  unfold find
  rw [h.locate_eq]
  cases hl : fs.locate path with
  | error fault => rfl
  | ok l => simp only [hb l hl, h.isDirectory_eq]

theorem readText_eq (h : SamePlaces fs fs')
    (hb : ∀ l, fs.locate path = .ok l → fs'.bytesAt? l = fs.bytesAt? l) :
    fs'.readText path = fs.readText path := by
  simp only [readText, h.find_eq hb]

/-- The comments of a module are loaded as before where only other files than their
    own were rewritten. -/
theorem load_eq (h : SamePlaces fs fs') {named : Option String}
    (hb : ∀ l, fs.locate (CommentsFile.fileFor path named) = .ok l →
      fs'.bytesAt? l = fs.bytesAt? l) :
    CommentsFile.load fs' path named = CommentsFile.load fs path named := by
  have hread := h.readText_eq hb
  have hfind := h.find_eq hb
  cases named with
  | some file =>
    simp only [CommentsFile.fileFor] at hread
    simp only [CommentsFile.load, CommentsFile.read, hread]
  | none =>
    simp only [CommentsFile.fileFor] at hread hfind
    unfold CommentsFile.load CommentsFile.read isFile
    dsimp only
    rw [hread, hfind]

end SamePlaces

/-- A file that is read stands where its path leads. -/
theorem exists_of_readText {fs : Files} {path text : String} {l : Location}
    (hl : fs.locate path = .ok l) (h : fs.readText path = .ok text) : (fs.bytesAt? l).isSome := by
  simp only [readText, find, hl] at h
  cases hb : fs.bytesAt? l with
  | some bytes => rfl
  | none => simp [hb] at h

end Files

end ComponentDecl
