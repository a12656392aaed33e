namespace DisplayList

inductive FileError where
  | notFound
  | notDirectory
  | isDirectory
  | nameTooLong
  | other (message : String)
  deriving DecidableEq

def FileError.message : FileError → String
  | notFound => "No such file or directory (os error 2)"
  | notDirectory => "Not a directory (os error 20)"
  | isDirectory => "Is a directory (os error 21)"
  | nameTooLong => "File name too long (os error 36)"
  | other message => message

structure Files (m : Type → Type) where
  read : String → m (Except FileError ByteArray)
  /-- Whatever the file held before is lost. -/
  write : String → String → m (Except FileError Unit)

/-- A folder that holds files and no other folders. -/
structure Folder where
  entries : List (String × String) := []

namespace Folder

def text? (folder : Folder) (name : String) : Option String := folder.entries.lookup name

inductive Place where
  | here
  | above
  deriving DecidableEq

inductive Target where
  | directory
  /-- With a slash after it, the name has to be one of a directory. -/
  | name (place : Place) (name : String) (asDirectory : Bool)

def longestName : Nat := 255

def longestPath : Nat := 4095

/-- The text under a name, if it stands for a file. Nothing is known of what the directories above the folder hold. -/
def find (folder : Folder) (place : Place) (name : String) : Except FileError (Option String) :=
  if longestName < name.utf8ByteSize then .error .nameTooLong
  else .ok (if place = .here then folder.text? name else none)

def follow (folder : Folder) (place : Place) (part : String) : Except FileError Place := do
  if part = "." then return place
  if part = ".." then return .above
  if (← folder.find place part).isSome then .error .notDirectory else .error .notFound

def resolve (folder : Folder) (path : String) : Except FileError Target := do
  if path = "" then .error .notFound
  if longestPath < path.utf8ByteSize then .error .nameTooLong
  let parts := (path.splitOn "/").filter (· ≠ "")
  let place ← parts.dropLast.foldlM folder.follow (if path.startsWith "/" then .above else .here)
  match parts.getLast? with
  | none | some "." | some ".." => return .directory
  | some name => return .name place name (path.endsWith "/")

def read (folder : Folder) (path : String) : Except FileError ByteArray := do
  match ← folder.resolve path with
  | .directory => .error .isDirectory
  | .name place name asDirectory =>
    match ← folder.find place name with
    | some text => if asDirectory then .error .notDirectory else .ok text.toUTF8
    | none => .error .notFound

def write (folder : Folder) (path text : String) : Except FileError Folder := do
  match ← folder.resolve path with
  | .directory | .name _ _ true => .error .isDirectory
  | .name place name false =>
    let _ ← folder.find place name
    return if place = .here then ⟨(name, text) :: folder.entries⟩ else folder

def files : Files (StateM Folder) where
  read path folder := (folder.read path, folder)
  write path text folder :=
    match folder.write path text with
    | .ok folder => (.ok (), folder)
    | .error e => (.error e, folder)

end Folder

end DisplayList
