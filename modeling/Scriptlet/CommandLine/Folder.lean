import Scriptlet.NameTable

/-!
Files as the command line sees them: bytes under a path, read and written through a disk. A
folder is a disk in memory. A path is followed part by part, and every part but the last must
lead to a directory that is there, even if the next part leads back out of it.
-/
namespace Scriptlet.CommandLine

inductive FileError where
  | missing
  | notDirectory
  | isDirectory
  | nameTooLong
  | other (text : String)
  deriving DecidableEq, Repr

def FileError.message : FileError → String
  | .missing => "No such file or directory (os error 2)"
  | .notDirectory => "Not a directory (os error 20)"
  | .isDirectory => "Is a directory (os error 21)"
  | .nameTooLong => "File name too long (os error 36)"
  | .other text => text

structure Disk (m : Type → Type) where
  read : String → m (Except FileError (List UInt8))
  write : String → List UInt8 → m (Except FileError Unit)

/-- Where a path leads, by the names on the way from the folder. Places above the folder begin
with as many `..` as there are steps up, and places below the topmost directory with `/`. -/
abbrev Place := List String

namespace Place

def top : Place := ["/"]

def isAbove (place : Place) : Bool := place == top || place.all (· == "..")

def parent (place : Place) : Place :=
  if place == top then top else if place.isAbove then place ++ [".."] else place.dropLast

end Place

def maxNameBytes : Nat := 255

def maxPathBytes : Nat := 4095

structure Route where
  start : Place
  parts : List String
  endsInSlash : Bool
  deriving DecidableEq, Repr

def Route.of (path : String) : Except FileError Route :=
  if path.isEmpty then .error .missing
  else if maxPathBytes < path.utf8ByteSize then .error .nameTooLong
  else .ok {
    start := if path.startsWith "/" then .top else []
    parts := (path.splitOn "/").filter (· != "")
    endsInSlash := path.endsWith "/" }

/-- Files by their places. Directories are there as far as files are in them, and so are the
directories above the folder. -/
structure Folder where
  files : List (Place × List UInt8)

namespace Folder

def find? (folder : Folder) (place : Place) : Option (List UInt8) := folder.files.lookup place

def isDirectory (folder : Folder) (place : Place) : Bool :=
  place.isAbove || folder.files.any fun (file, _) => place.isPrefixOf file && place != file

def requireDirectory (folder : Folder) (place : Place) : Except FileError Unit :=
  if folder.isDirectory place then .ok ()
  else .error (if (folder.find? place).isSome then .notDirectory else .missing)

/-- Goes one part further from a place, which must be a directory. What is found there does not
matter yet. -/
def follow (folder : Folder) (place : Place) (part : String) : Except FileError Place := do
  folder.requireDirectory place
  if part = "." then return place
  else if part = ".." then return place.parent
  else if maxNameBytes < part.utf8ByteSize then throw .nameTooLong
  else return place ++ [part]

def read (folder : Folder) (path : String) : Except FileError (List UInt8) := do
  let route ← Route.of path
  let place ← route.parts.foldlM folder.follow route.start
  if folder.isDirectory place then throw .isDirectory
  match folder.find? place with
  | some bytes => if route.endsInSlash then throw .notDirectory else return bytes
  | none => throw .missing

/-- Writes a file, new or in place of the one that is there. A slash at the end asks for a
directory, so it is refused before its name is looked at. -/
def write (folder : Folder) (path : String) (bytes : List UInt8) : Except FileError Folder := do
  let route ← Route.of path
  let holder ← route.parts.dropLast.foldlM folder.follow route.start
  folder.requireDirectory holder
  let some name := route.parts.getLast? | throw .isDirectory
  if route.endsInSlash then throw .isDirectory
  let place ← folder.follow holder name
  if folder.isDirectory place then throw .isDirectory
  return ⟨(place, bytes) :: folder.files.filter (·.1 != place)⟩

def disk : Disk (StateM Folder) where
  read path := return (← get).read path
  write path bytes := do
    match (← get).write path bytes with
    | .ok folder =>
      set folder
      return .ok ()
    | .error e => return .error e

end Folder

/-- Replaces what follows the last dot of a file's name, or adds it. A leading dot is part of
the name. -/
def replaceExtension (path extension : String) : String :=
  let trimmed := path.toList.reverse.dropWhile (· == '/')
  let name := trimmed.takeWhile (· != '/')
  let directory := trimmed.drop name.length
  if name.isEmpty || name == ['.'] || name == ['.', '.'] then path
  else
    let stem := match name.dropWhile (· != '.') with
      | [] | ['.'] => name
      | _ :: stem => stem
    String.ofList (stem ++ directory).reverse ++ "." ++ extension

end Scriptlet.CommandLine
