import ViewIndex.Storage.Checksum
import ViewIndex.Storage.Directory
import ViewIndex.Storage.Record

/-!
# Image files

An image is stored in one file behind a header that holds the length and the checksum of the rest.
It is written under a temporary name, first marked as incomplete, and renamed when it is complete.
A file that is damaged in any way counts as no image.
-/

namespace ViewIndex.Storage.ImageFile

def fileName : String := "index.db"

/-- The name under which an image is written. -/
def temporaryName : String := "index.db.tmp"

def mark : Nat := 0xD0C50001
def version : Nat := 2
def committed : Nat := 1
def incomplete : Nat := 0xFFFFFFFF

/-- The number of bytes before the image. -/
def headerSize : Nat := 20

/-- Mark, version, state, length and checksum, four bytes each. -/
def header (state length sum : Nat) : Bytes :=
  [mark, version, state, length, sum].flatMap (Bytes.littleEndian 4)

/-- The header of a complete image. The checksum is taken while the pieces are written. -/
def committedHeader (image : Image) : Bytes :=
  header committed (Binary.encodeImage image).length
    (Checksum.ofPieces (Binary.imagePieces image)).toNat

/-- The bytes of a complete image file. -/
def encode (image : Image) : Bytes := committedHeader image ++ Binary.encodeImage image

/-- The image in a file, if the file is complete and undamaged. -/
def decode? (content : Bytes) : Option Image := do
  let (head, body) ← Bytes.split? headerSize content
  guard (body.length < UInt32.size)
  guard (head = header committed body.length (Checksum.ofBytes body).toNat)
  Binary.run? Binary.decodeImage body

/-- The length of an image stands in four bytes of the header. -/
def fits (image : Image) : Bool := (Binary.encodeImage image).length < UInt32.size

/-- Writing an image without saying that it is complete. -/
def draft (image : Image) : FileEffect :=
  .write temporaryName (header incomplete 0 0 ++ Binary.encodeImage image)

/-- An image is written in full before it takes the place of the last one. -/
def saveEffects (image : Image) : List FileEffect :=
  [draft image, .write temporaryName (encode image), .rename temporaryName fileName]

/-- Saves an image. That one is too large shows when it has been written. -/
def save (directory : Directory) (image : Image) : Except StorageError Unit × Directory :=
  if fits image then directory.run (saveEffects image)
  else
    let (result, directory) := directory.run [draft image]
    (result.bind fun _ => .error .imageTooLarge, directory)

def load (directory : Directory) : Except StorageError (Option Image) :=
  if directory.hasFolder fileName then .error (.nameTaken fileName)
  else .ok ((directory.content? fileName).bind decode?)

end ViewIndex.Storage.ImageFile
