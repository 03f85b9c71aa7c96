/-!
# Files

The files that a command can see: those of its working directory, and of the directory for listings
in it. A path names a file by its parts between slashes; empty parts and those that are a single dot
do not count.
-/

namespace ScoreLang

/-- Files by their names, which are written without superfluous parts. -/
abbrev Files := List (String × List UInt8)

namespace Files

/-- The directory for listings. -/
def listingsDirectory : String := "out"

/-- The parts of a path that count. -/
def parts (path : String) : List String :=
  (path.splitOn "/").filter fun part => part ≠ "" ∧ part ≠ "."

/-- Whether a path can only name a directory. -/
def isDirectoryForm (path : String) : Bool :=
  ["", "."].contains ((path.splitOn "/").getLast?.getD "")

/-- Whether some parts name a directory. -/
def isDirectory (parts : List String) : Bool :=
  parts == [] || parts == [listingsDirectory]

/-- Whether a path begins at the root of the file system, of which only the root itself is known. -/
def isAbsolute (path : String) : Bool :=
  path.startsWith "/"

/-- What is found at a path. -/
inductive Found where
  | file (bytes : List UInt8)
  | directory
  /-- Nothing. -/
  | nothing
  deriving DecidableEq, Repr

/-- What is found at a path. -/
def find (files : Files) (path : String) : Found :=
  let parts := parts path
  if path = "" then .nothing
  else if isAbsolute path then if parts == [] then .directory else .nothing
  else if isDirectory parts then .directory
  else if isDirectoryForm path then .nothing
  else
    match files.lookup ("/".intercalate parts) with
    | some bytes => .file bytes
    | none => .nothing

/-- Why a file cannot be read or written. -/
inductive Fault where
  /-- There is no such file, or no directory for it. -/
  | missing
  /-- The path names a directory. -/
  | directory
  /-- The file is not a text. -/
  | notText
  deriving DecidableEq, Repr

/-- The wording of a fault, if it has one. -/
def Fault.message? : Fault → Option String
  | .missing => some "2, No such file or directory"
  | _ => none

/-- The text in a file. -/
def readText (files : Files) (path : String) : Except Fault String :=
  match files.find path with
  | .nothing => .error .missing
  | .directory => .error .directory
  | .file bytes =>
    match String.fromUTF8? ⟨bytes.toArray⟩ with
    | some text => .ok text
    | none => .error .notText

/-- Puts bytes into the file with the given name. -/
def set (files : Files) (name : String) (bytes : List UInt8) : Files :=
  (name, bytes) :: files.filter (·.1 ≠ name)

/-- Writes a file. -/
def write (files : Files) (path : String) (bytes : List UInt8) : Except Fault Files :=
  let parts := parts path
  match files.find path with
  | .directory => .error .directory
  | .file _ => .ok (files.set ("/".intercalate parts) bytes)
  | .nothing =>
    if isAbsolute path ∨ isDirectoryForm path ∨ !isDirectory parts.dropLast then .error .missing
    else .ok (files.set ("/".intercalate parts) bytes)

/-- Puts a text into a file of the directory for listings, if there is one. -/
def setListing (files : Files) (name : String) (text : Option String) : Files :=
  match text with
  | some text => files.set (listingsDirectory ++ "/" ++ name) text.toUTF8.toList
  | none => files

end Files

end ScoreLang
