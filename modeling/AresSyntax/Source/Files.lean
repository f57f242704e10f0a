import AresSyntax.Text.Lines
import AresSyntax.Text.Quoted

/-!
Files by their paths, as far as reading needs them.

Main definitions:
* `FileError`: why a path cannot be read, with number and wording;
* `Place`: where a path leads in the tree of directories;
* `FileSet`: what lies at the places of the tree;
* `FileSet.put`, `FileSet.read`: a further file, and the contents at a path;
* `FileSet.load`: the text at a path.
-/
namespace AresSyntax

/-- Why a path cannot be read. -/
inductive FileError
  | notFound
  | notDirectory
  | isDirectory
  | nameTooLong
  | other (number : Nat) (reason : String)
  deriving DecidableEq, Repr

namespace FileError

def number : FileError → Nat
  | notFound => 2
  | notDirectory => 20
  | isDirectory => 21
  | nameTooLong => 36
  | other number _ => number

def reason : FileError → String
  | notFound => "No such file or directory"
  | notDirectory => "Not a directory"
  | isDirectory => "Is a directory"
  | nameTooLong => "File name too long"
  | other _ reason => reason

def message (e : FileError) (path : String) : String :=
  "[Errno " ++ toString e.number ++ "] " ++ e.reason ++ ": " ++ Text.quoted path

end FileError

/-- Why a file has no text: its path holds a null character and names nothing, it cannot be read,
or its bytes are no UTF-8. -/
inductive LoadError
  | nullInPath
  | unreadable (e : FileError)
  | undecodable
  deriving DecidableEq, Repr

/-- The message for a null character in a path. -/
def nullInPathMessage : String := "embedded null byte"

/-- The text of some bytes. -/
def textOf (bytes : ByteArray) : Except LoadError String :=
  match Text.decode? bytes with
  | some text => .ok text
  | none => .error .undecodable

/-- The text at a path whose contents are as given. -/
def textAt (path : String) (contents : Except FileError ByteArray) : Except LoadError String :=
  if path.toList.contains '\x00' then .error .nullInPath
  else match contents with
    | .error e => .error (.unreadable e)
    | .ok bytes => textOf bytes

/-- A place in the tree of directories: the names on the way from the root. -/
abbrev Place := List String

namespace Place

def root : Place := []

/-- Where relative paths start: among the temporary files. The last name is empty, and since no
path spells such a name, this place is not reached from above. -/
def workingDirectory : Place := ["tmp", ""]

/-- Where a path starts: one with a leading slash at the root, any other in the working
directory. -/
def start (path : String) : Place :=
  if path.toList.head? = some '/' then root else workingDirectory

/-- The place behind a name. An empty name and a dot stay, and two dots go back, though never
beyond the root. -/
def enter (place : Place) (name : String) : Place :=
  if name = "" ∨ name = "." then place
  else if name = ".." then place.dropLast
  else place ++ [name]

/-- The names in a path between slashes, the empty ones included. -/
def names (path : String) : List String := path.splitOn "/"

/-- The greatest size of a name, in bytes. -/
def nameLimit : Nat := 255

/-- The greatest size of a path, in bytes. -/
def pathLimit : Nat := 4095

end Place

/-- What lies at a place. -/
inductive Entry
  | directory
  | file (contents : ByteArray)

/-- What is known to lie at the places of the tree, the latest knowledge first. -/
structure FileSet where
  entries : List (Place × Entry)

namespace FileSet

/-- The tree without files of its own: an empty working directory, and what every system has, the
root, the directory of temporary files, and that of devices with the one that reads as empty. -/
def bare : FileSet :=
  ⟨[(.root, .directory), (["dev"], .directory), (["dev", "null"], .file .empty),
    (["tmp"], .directory), (.workingDirectory, .directory)]⟩

def at? (s : FileSet) (place : Place) : Option Entry := s.entries.lookup place

/-- The tree with `e` at a place, instead of what lay there. -/
def set (s : FileSet) (place : Place) (e : Entry) : FileSet := ⟨(place, e) :: s.entries⟩

/-- Puts a file behind some names from a place, with the directories that these pass through. -/
def putFrom (s : FileSet) (place : Place) (contents : ByteArray) : List String → FileSet
  | [] => s.set place (.file contents)
  | name :: rest => (s.set place .directory).putFrom (place.enter name) contents rest

/-- The tree with a file at a path. -/
def put (s : FileSet) (path : String) (contents : ByteArray) : FileSet :=
  s.putFrom (.start path) contents (Place.names path)

/-- The tree with some files, of which the later ones replace the earlier ones. -/
def ofList (files : List (String × ByteArray)) : FileSet :=
  files.foldl (fun s f => s.put f.1 f.2) bare

/-- Follows names from a place. Only a directory can be left by a further name. -/
def follow (s : FileSet) (place : Place) : List String → Except FileError ByteArray
  | [] =>
    match s.at? place with
    | none => .error .notFound
    | some .directory => .error .isDirectory
    | some (.file contents) => .ok contents
  | name :: rest =>
    match s.at? place with
    | none => .error .notFound
    | some (.file _) => .error .notDirectory
    | some .directory =>
      if Place.nameLimit < name.utf8ByteSize then .error .nameTooLong
      else s.follow (place.enter name) rest

/-- The contents at a path. An empty path leads nowhere. -/
def read (s : FileSet) (path : String) : Except FileError ByteArray :=
  if path = "" then .error .notFound
  else if Place.pathLimit < path.utf8ByteSize then .error .nameTooLong
  else s.follow (.start path) (Place.names path)

/-- The text at a path. -/
def load (s : FileSet) (path : String) : Except LoadError String := textAt path (s.read path)

end FileSet
end AresSyntax
