import ViewIndex.CommandLine.Session

/-!
# The program

The outer layer of the command line: it gives a session the real disk, prints what comes of it and
returns the exit code. Of the files in a directory only those of a view are looked at.
-/

namespace ViewIndex.CommandLine

/-- The files of a view that bear the same name everywhere. -/
def namedFiles : List String :=
  [Storage.ImageFile.fileName, Storage.ImageFile.temporaryName, Storage.Log.fileName]

/-- Whether a file belongs to the stored state of a view. -/
def isStateFile (name : String) : Bool :=
  name ∈ namedFiles || (Storage.Log.sealId? name).isSome

/-- Takes in what stands in a directory. -/
def readDirectory (path : String) : IO Directory := do
  let mut directory : Directory := {}
  for entry in ← (← IO.FS.realPath path).readDir do
    let name := entry.fileName
    if ← entry.path.isDir then
      directory := { directory with folders := name :: directory.folders }
    else if isStateFile name then
      directory := directory.setContent name (← IO.FS.readBinFile entry.path).data.toList
  return directory

/-- The disk of the machine. -/
def machineDisk : Disk IO where
  readText name := do
    try return .text (← IO.FS.readFile name)
    catch
      | .noFileOrDirectory .. => return .missing
      | _ => return .unreadable
  openDirectory path := do
    try
      IO.FS.createDirAll path
      return some (← readDirectory path)
    catch _ => return none
  saveDirectory path directory := do
    for (name, file) in directory.files.toList do
      let target := Config.joinPath path name
      IO.FS.writeBinFile (target ++ ".new") ⟨file.content.toArray⟩
      IO.FS.rename (target ++ ".new") target
    for name in (← readDirectory path).files.keys do
      if !directory.files.contains name then IO.FS.removeFile (Config.joinPath path name)

/-- The memory of this process; zero where the system does not tell. -/
def processMemory : IO Nat := do
  try return Report.residentBytes (← IO.FS.readFile "/proc/self/statm")
  catch _ => return 0

end ViewIndex.CommandLine

open ViewIndex.CommandLine in
/-- Carries out one call. -/
def main (arguments : List String) : IO UInt32 := do
  let outcome ← run machineDisk arguments (← processMemory) (← IO.monoNanosNow)
  if let some report := outcome.report then IO.eprintln report
  if let some message := outcome.message then IO.eprintln s!"Error: {message}"
  if outcome.exitCode = 2 then IO.eprintln "the arguments cannot be used"
  if outcome.exitCode = 101 then IO.eprintln "attempt to add with overflow"
  IO.print outcome.output
  return UInt32.ofNat outcome.exitCode
