import ViewIndex.CommandLine.Session

/-!
# Disks in memory

A volume can stand in for the disk of a machine, so that sessions can be run without one. A file
that is read as text has to be UTF-8.
-/

namespace ViewIndex.CommandLine

/-- What a path of a volume leads to. -/
def readVolume (volume : Volume) (path : String) : FileText :=
  match volume.locate path with
  | .error .missing => .missing
  | .error .blocked => .unreadable
  | .ok place =>
      match volume.file? place with
      | some content => ((Bytes.toText? content).map .text).getD .unreadable
      | none => if volume.isFolder place then .unreadable else .missing

/-- A volume as a session uses it. -/
def memoryDisk : Disk (StateM Volume) where
  readText path := do return readVolume (← get) path
  openDirectory path := modifyGet fun volume =>
    let (directory, volume) := volume.openFolder path
    (directory.toOption, volume)
  saveDirectory path directory := modify fun volume => volume.putAt path directory

end ViewIndex.CommandLine
