import ViewIndex.Storage.Directory

/-!
# Volumes

A volume is a tree of directories. A path is followed name by name from the root or from the working
directory, and each name but the last has to be that of a directory, also where the path turns back.
Two paths that lead to one directory show the same files.
-/

namespace ViewIndex

/-- Where a file or a directory stands: the names that lead to it from the root, the last one
first. -/
abbrev Place := List String

structure Volume where
  /-- The directories by their places. Each is listed among the folders of the one around it. -/
  directories : List (Place × Directory) := [([], {})]
  /-- The directory in which paths start that do not start at the root. -/
  working : Place := []

/-- Why a path leads nowhere. -/
inductive PathError where
  /-- A directory on the way does not exist. -/
  | missing
  /-- A file stands in the way, or no file can have such a name. -/
  | blocked
deriving DecidableEq, Repr

namespace Volume

/-- The longest name, in bytes. -/
def maxName : Nat := 255

/-- The longest path, in bytes. -/
def maxPath : Nat := 4095

/-- What stands in the directory at a place. -/
def directory? (volume : Volume) (place : Place) : Option Directory :=
  volume.directories.lookup place

/-- Whether a directory stands at a place. -/
def isFolder (volume : Volume) : Place → Bool
  | [] => true
  | name :: parent => (volume.directory? parent).any (·.hasFolder name)

def file? (volume : Volume) : Place → Option Bytes
  | [] => none
  | name :: parent => (volume.directory? parent).bind (·.content? name)

/-- Puts a directory at a place. -/
def put (volume : Volume) (place : Place) (directory : Directory) : Volume :=
  { volume with
    directories := (place, directory) :: volume.directories.filter fun entry => entry.1 ≠ place }

/-- Adds an empty directory, unless there is one. -/
def addFolder (volume : Volume) (place : Place) : Volume :=
  match place with
  | [] => volume
  | name :: parent =>
      if volume.isFolder place then volume
      else
        let around := (volume.directory? parent).getD {}
        (volume.put parent { around with folders := name :: around.folders }).put place {}

/-! ## Paths -/

/-- Whether a path can be asked for at all. -/
def isPath (path : String) : Bool := !path.contains '\x00' && path.utf8ByteSize ≤ maxPath

/-- Where a path starts, and the names in it. -/
def start (volume : Volume) (path : String) : Place × List String :=
  (if path.startsWith "/" then [] else volume.working, path.splitToList (· == '/'))

/-- The place that a name denotes in a directory. The root stands in itself. -/
def place (folder : Place) (name : String) : Place :=
  if name = "" || name = "." then folder
  else if name = ".." then folder.tail
  else name :: folder

/-- Goes on by one name, which only directories allow. -/
def enter (volume : Volume) (current : Place) (name : String) : Except PathError Place :=
  if !volume.isFolder current then
    .error (if (volume.file? current).isSome then .blocked else .missing)
  else if maxName < name.utf8ByteSize then .error .blocked
  else .ok (place current name)

/-- The place to which a path leads. Nothing need be there, but the directory around it exists. -/
def locate (volume : Volume) (path : String) : Except PathError Place :=
  if path.isEmpty then .error .missing
  else if isPath path then
    let (origin, names) := volume.start path
    names.foldlM volume.enter origin
  else .error .blocked

/-- The place of the directory to which a path leads. -/
def folder? (volume : Volume) (path : String) : Option Place :=
  (volume.locate path).toOption.filter volume.isFolder

/-- What stands in the directory to which a path leads. -/
def directoryAt? (volume : Volume) (path : String) : Option Directory :=
  (volume.folder? path).bind volume.directory?

/-- Changes the directory to which a path leads, if there is one. -/
def putAt (volume : Volume) (path : String) (directory : Directory) : Volume :=
  ((volume.folder? path).map fun folder => volume.put folder directory).getD volume

/-- Follows names, adding the directories that do not exist. Those that were added stay when a later
name cannot be followed. -/
def makeFolders (volume : Volume) (current : Place) : List String → Option Place × Volume
  | [] => (some current, volume)
  | name :: rest =>
      let next := place current name
      if (volume.file? next).isSome || maxName < name.utf8ByteSize then (none, volume)
      else (volume.addFolder next).makeFolders next rest

/-- The directory to which a path leads, which is made if need be. -/
def openFolder (volume : Volume) (path : String) : Except StorageError Directory × Volume :=
  if isPath path then
    let (origin, names) := volume.start path
    let (folder, volume) := volume.makeFolders origin names
    (((folder.bind volume.directory?).map .ok).getD (.error .noDirectory), volume)
  else (.error .noDirectory, volume)

/-- Puts a directory where a path leads, making the directories around it if need be. -/
def install (volume : Volume) (path : String) (directory : Directory) : Volume :=
  (volume.openFolder path).2.putAt path directory

/-- Gives the file at a path a content, or removes it. Where a directory stands, nothing is
changed. -/
def setFile (volume : Volume) (path : String) (content : Option Bytes) : Volume :=
  match volume.locate path with
  | .ok (name :: parent) =>
      let effect := content.elim (FileEffect.remove name) (.write name ·)
      ((volume.directory? parent).map fun directory =>
        volume.put parent (directory.run [effect]).2).getD volume
  | _ => volume

/-- A volume with some directories that are empty. -/
def ofFolders (paths : List String) : Volume :=
  paths.foldl (fun volume path => (volume.openFolder path).2) {}

end Volume

end ViewIndex
