import Std.Data.ExtTreeMap
import ViewIndex.Bytes

/-!
# Directories

The state of a view is stored in the files of one directory. A directory is a value, and what is
done to it is a list of effects on single files. An effect happens as a whole or not at all; the
first that fails ends the list, and an interrupted operation has carried out some of its first
effects. A file keeps its number under a new name, so a file that is open is known by its number.
-/

namespace ViewIndex

/-- Why stored state cannot be used or changed. -/
inductive StorageError where
  /-- A directory bears the name that is meant for a file. -/
  | nameTaken (name : String)
  /-- The directory of a view cannot be made. -/
  | noDirectory
  /-- The value of a stored entry is not JSON. -/
  | unreadableValue
  /-- The length of a record does not fit its frame. -/
  | recordTooLarge (size : Nat)
  /-- The length of an image does not fit its header. -/
  | imageTooLarge
deriving DecidableEq, Repr

structure StoredFile where
  /-- Tells the files of a directory apart, also those that are gone. -/
  number : Nat
  content : Bytes
deriving DecidableEq, Repr

structure Directory where
  files : Std.ExtTreeMap String StoredFile := ∅
  /-- The names of the directories in this one. -/
  folders : List String := []
  /-- The number of the next new file. -/
  created : Nat := 0

/-- A change of one file that happens as a whole. -/
inductive FileEffect where
  /-- Gives a file a new content, creating it if need be. -/
  | write (name : String) (content : Bytes)
  /-- Adds to the end of an open file, whatever its name is now. What is added to a file that was
  removed is lost. -/
  | append (number : Nat) (more : Bytes)
  /-- Gives a file or a directory another name. A file that bears that name already is lost. -/
  | rename (source target : String)
  | remove (name : String)
deriving DecidableEq, Repr

namespace Directory

def hasFolder (directory : Directory) (name : String) : Bool := name ∈ directory.folders

def has (directory : Directory) (name : String) : Bool :=
  directory.files.contains name || directory.hasFolder name

def content? (directory : Directory) (name : String) : Option Bytes :=
  directory.files[name]?.map StoredFile.content

/-- The number of a file, or the one that it gets when it is created. -/
def numberOf (directory : Directory) (name : String) : Nat :=
  (directory.files[name]?.map StoredFile.number).getD directory.created

/-- Gives a file a content. A file that exists stays the same one. -/
def setContent (directory : Directory) (name : String) (content : Bytes) : Directory :=
  let number := directory.numberOf name
  { directory with
    files := directory.files.insert name ⟨number, content⟩
    created := max directory.created (number + 1) }

/-- Adds to the end of the file with a number. -/
def extend (directory : Directory) (number : Nat) (more : Bytes) : Directory :=
  { directory with
    files := directory.files.map fun _ file =>
      if file.number = number then { file with content := file.content ++ more } else file }

def erase (directory : Directory) (name : String) : Directory :=
  { directory with files := directory.files.erase name }

/-- Gives what bears one name another. Nothing happens to a name that is not in use. -/
def move (directory : Directory) (source target : String) : Directory :=
  match directory.files[source]? with
  | some file => { directory with files := (directory.files.erase source).insert target file }
  | none => { directory with folders := directory.folders.replace source target }

/-- The directory after one effect. No effect on a file reaches a directory of its name. -/
def apply (directory : Directory) : FileEffect → Except StorageError Directory
  | .write name content =>
      if directory.hasFolder name then .error (.nameTaken name)
      else .ok (directory.setContent name content)
  | .append number more => .ok (directory.extend number more)
  | .rename source target =>
      if directory.hasFolder target then .error (.nameTaken target)
      else .ok (directory.move source target)
  | .remove name =>
      if directory.hasFolder name then .error (.nameTaken name) else .ok (directory.erase name)

/-- Carries effects out one after the other, up to the first that fails. -/
def run (directory : Directory) : List FileEffect → Except StorageError Unit × Directory
  | [] => (.ok (), directory)
  | effect :: rest =>
      match directory.apply effect with
      | .ok next => next.run rest
      | .error e => (.error e, directory)

end Directory

end ViewIndex
