/-!
# Files

The files and directories that a run can reach, and how a path leads to one of them. A path is
walked name by name, from the root or from the directory in which the run takes place: every name
but the last has to lead to a directory, and two dots lead back. There are plain files and
directories and no other entries, so a path leads to one place and what is written can be read.
-/
namespace Pseudocode.CommandLine

/-- Why a file could not be read or written. -/
inductive FileFault where
  | notFound
  | notDirectory
  | isDirectory
  | nameTooLong
  | notText
  /-- Any other reason, in the words of the system. -/
  | other (text : String)

/-- The wording of a fault of a file. -/
def FileFault.message : FileFault → String
  | .notFound => "No such file or directory (os error 2)"
  | .notDirectory => "Not a directory (os error 20)"
  | .isDirectory => "Is a directory (os error 21)"
  | .nameTooLong => "File name too long (os error 36)"
  | .notText => "stream did not contain valid UTF-8"
  | .other text => text

/-- The content of a file: a text, or bytes that are none. -/
inductive Content where
  | text (text : String)
  | binary (bytes : List UInt8)

/-- The content that a row of bytes is. -/
def Content.ofBytes (bytes : List UInt8) : Content :=
  match String.fromUTF8? (ByteArray.mk bytes.toArray) with
  | some decoded => .text decoded
  | none => .binary bytes

/-- The text that a content is. -/
def Content.read : Content → Except FileFault String
  | .text s => .ok s
  | .binary _ => .error .notText

/-- The parts of a text between the slashes in it. -/
def parts : List Char → List (List Char)
  | [] => [[]]
  | '/' :: rest => [] :: parts rest
  | c :: rest =>
    match parts rest with
    | [] => [[c]]
    | part :: later => (c :: part) :: later

/-- A path, cut into names. -/
structure Path where
  /-- Whether the path starts at the root. -/
  fromRoot : Bool
  names : List String
  /-- Whether a slash stands behind the last name. -/
  slash : Bool
  deriving DecidableEq

/-- The path that a text stands for. Of several slashes in a row one counts. -/
def Path.ofText (text : String) : Path :=
  let all := parts text.toList
  { fromRoot := text.toList.head? = some '/'
    names := (all.filter (· ≠ [])).map String.ofList
    slash := all.getLast? = some [] }

example : Path.ofText "./a//b.txt" = ⟨false, [".", "a", "b.txt"], false⟩ := by decide +kernel

example : Path.ofText "/a/" = ⟨true, ["a"], true⟩ := by decide +kernel

/-- The longest path, in bytes. -/
def longestPath : Nat := 4095

/-- The longest name in a path, in bytes. -/
def longestName : Nat := 255

/-- Whether a name stands for a directory in relation to another one. -/
def isDots (name : String) : Bool := name = "." || name = ".."

/-- What stands at a place. -/
inductive Entry where
  | file (content : Content)
  | directory
  | missing

/-- Everything that a run can reach: what stands at each place, a place being the names that lead to
it from the root, and the directory in which the run takes place. -/
structure Folder where
  entry : List String → Entry
  location : List String

namespace Folder

/-- What a name stands for in a directory. -/
def look (folder : Folder) (place : List String) (name : String) : Except FileFault Entry :=
  if name.utf8ByteSize > longestName then .error .nameTooLong
  else .ok (folder.entry (place ++ [name]))

/-- The directory that a name leads to from another one. Nothing lies above the root. -/
def enter (folder : Folder) (place : List String) (name : String) :
    Except FileFault (List String) := do
  if name = "." then return place
  if name = ".." then return place.dropLast
  match ← folder.look place name with
  | .directory => return place ++ [name]
  | .file _ => throw .notDirectory
  | .missing => throw .notFound

/-- The directory that the names in front of the last one lead to, and the last name, if
there is one. -/
def walk (folder : Folder) (path : String) : Except FileFault (List String × Option String) := do
  if path.utf8ByteSize > longestPath then throw .nameTooLong
  if path.isEmpty then throw .notFound
  let route := Path.ofText path
  let start := if route.fromRoot then [] else folder.location
  let place ← route.names.dropLast.foldlM folder.enter start
  return (place, route.names.getLast?)

/-- The text of the file at a path. -/
def read (folder : Folder) (path : String) : Except FileFault String := do
  match ← folder.walk path with
  | (_, none) => throw .isDirectory
  | (place, some name) =>
    if isDots name then throw .isDirectory
    match ← folder.look place name with
    | .file content => if (Path.ofText path).slash then throw .notDirectory else content.read
    | .directory => throw .isDirectory
    | .missing => throw .notFound

/-- The folder with a text in the file at a place. -/
def put (folder : Folder) (place : List String) (text : String) : Folder :=
  { folder with
    entry := fun other => if other = place then .file (.text text) else folder.entry other }

/-- The folder after a text was written to the file at a path. A path that ends in a slash
names no file. -/
def write (folder : Folder) (path text : String) : Except FileFault Folder := do
  match ← folder.walk path with
  | (_, none) => throw .isDirectory
  | (place, some name) =>
    if isDots name || (Path.ofText path).slash then throw .isDirectory
    match ← folder.look place name with
    | .directory => throw .isDirectory
    | _ => return folder.put (place ++ [name]) text

/-- The content of a file in the directory of the run. -/
def find? (folder : Folder) (name : String) : Option Content :=
  match folder.entry (folder.location ++ [name]) with
  | .file content => some content
  | _ => none

end Folder

/-- Files by the paths at which a run sees them. -/
structure Files where
  contents : List (String × Content)

namespace Files

/-- The directory of a run that has a directory of its own. -/
def home : List String := ["tmp", "run"]

/-- The place of a file. -/
def place (path : String) : List String :=
  let route := Path.ofText path
  if route.fromRoot then route.names else home ++ route.names

/-- The files in a directory of their own, with the directories that lead to them. -/
def folder (files : Files) : Folder where
  location := home
  entry names :=
    match files.contents.find? fun file => place file.1 = names with
    | some (_, content) => .file content
    | none =>
      if names.isPrefixOf home ||
          files.contents.any fun file => names.isPrefixOf (place file.1) then .directory
      else .missing

end Files

end Pseudocode.CommandLine
