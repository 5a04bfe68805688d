import ComponentDecl.Command.Run

/-! # The program

    Looks up the files that the arguments name, runs the command on them, and
    writes what has changed. -/

namespace ComponentDecl.Command

/-- Adds what stands at a place to the files known so far. -/
def lookUp (fs : Files) (l : Location) : IO Files := do
  if (fs.bytesAt? l).isSome || fs.isDirectory l then return fs
  try
    let bytes ← IO.FS.readBinFile (pathOf l)
    return fs.put l bytes.toList
  catch
    | .inappropriateType .. => return { fs with directories := l :: fs.directories }
    | .noFileOrDirectory .. => return fs
    | e => throw e

/-- The files that arguments name. -/
def lookUpAll (arguments : List String) : IO Files := do
  let mut fs : Files := ⟨[], []⟩
  for path in pathsOf arguments do
    for l in placesOf path do
      fs ← lookUp fs l
  return fs

/-- The variables that are set. -/
def readEnvironment : IO (List (String × String)) := do
  variableNames.filterMapM fun name => do
    return (← IO.getEnv name).map fun value => (name, value)

/-- Writes the files that have changed. -/
def writeChanges (former latter : Files) : IO Unit := do
  for (l, bytes) in latter.contents do
    if former.bytesAt? l != some bytes then
      IO.FS.writeBinFile (pathOf l) ⟨bytes.toArray⟩

end ComponentDecl.Command

open ComponentDecl.Command in
/-- Runs the command on the files of the system. -/
def main (arguments : List String) : IO UInt32 := do
  let fs ← lookUpAll arguments
  let report := runIn .word fs (← readEnvironment) arguments
  writeChanges fs report.files
  IO.print report.printed
  IO.eprint report.errorText
  return report.exitCode.toUInt32
