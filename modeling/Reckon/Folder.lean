import Reckon.Source

/-!
# Folders

Where a path leads. A path that starts with a slash is looked up from the root, every other one
from the current folder.
-/

namespace Reckon

inductive Base where
  | root
  | here
  /-- Some folder above the current one. -/
  | above
  deriving DecidableEq, Repr

structure Place where
  base : Base
  /-- The names on the way down, last one first. -/
  names : List String
  deriving DecidableEq, Repr

namespace Place

/-- The folder around a place. The root is its own. -/
def up : Place → Place
  | ⟨base, _ :: names⟩ => ⟨base, names⟩
  | ⟨.root, []⟩ => ⟨.root, []⟩
  | ⟨.here, []⟩ => ⟨.above, []⟩
  | ⟨.above, []⟩ => ⟨.above, []⟩

def down (p : Place) (name : String) : Place := ⟨p.base, name :: p.names⟩

end Place

inductive Entry where
  | file (bytes : List UInt8)
  | folder

/-- Everything that can be reached, next to the root, the current folder and those above it. -/
structure Folder where
  entries : List (Place × Entry)

namespace Folder

def notFound : Fault := ⟨.notFound, some "No such file or directory (os error 2)"⟩

def notDirectory : Fault := ⟨.notDirectory, some "Not a directory (os error 20)"⟩

def isDirectory : Fault := ⟨.isDirectory, some "Is a directory (os error 21)"⟩

def nameTooLong : Fault := ⟨.nameTooLong, some "File name too long (os error 36)"⟩

/-- Bytes in the longest name that one entry can have. -/
def longestName : Nat := 255

def longestPath : Nat := 4095

def find? (f : Folder) (place : Place) : Option Entry :=
  if place.names.isEmpty then some .folder else f.entries.lookup place

/-- Follows names down from a place. Only a folder has anything behind a slash. -/
def walk (f : Folder) (place : Place) : List String → Except Fault Entry
  | [] => (f.find? place).elim (.error notFound) .ok
  | name :: rest =>
    match f.find? place with
    | none => .error notFound
    | some (.file _) => .error notDirectory
    | some .folder =>
      if name = "" ∨ name = "." then walk f place rest
      else if name = ".." then walk f place.up rest
      else if longestName < name.utf8ByteSize then .error nameTooLong
      else walk f (place.down name) rest

def resolve (f : Folder) (path : String) : Except Fault Entry :=
  if longestPath < path.utf8ByteSize then .error nameTooLong
  else match path.splitOn "/" with
    | [""] => .error notFound
    | "" :: names => f.walk ⟨.root, []⟩ names
    | names => f.walk ⟨.here, []⟩ names

/-- A folder can be opened, but reading it fails. -/
def openFile (f : Folder) (path : String) : Except Fault Source :=
  (f.resolve path).map fun
    | .file bytes => .ofBytes bytes
    | .folder => [.fault isDirectory]

end Folder

end Reckon
