import Std.Data.ExtTreeMap
import SourceAtlas.Path
/-!
A tree of directories and files without links, and the operations on it with the faults that a
POSIX system answers. An operation that fails may still have changed the tree: `writeAtomic` makes
the directories first, so it leaves them behind.
-/

namespace SourceAtlas

inductive IoFault where
  | notFound
  | busy
  | alreadyExists
  | notDirectory
  | isDirectory
  | invalidArgument
  | nameTooLong
  | zeroInName
  | notText
  | noParent
  deriving Repr, DecidableEq

def IoFault.message : IoFault → String
  | notFound => "No such file or directory (os error 2)"
  | busy => "Device or resource busy (os error 16)"
  | alreadyExists => "File exists (os error 17)"
  | notDirectory => "Not a directory (os error 20)"
  | isDirectory => "Is a directory (os error 21)"
  | invalidArgument => "Invalid argument (os error 22)"
  | nameTooLong => "File name too long (os error 36)"
  | zeroInName => "file name contained an unexpected NUL byte"
  | notText => "stream did not contain valid UTF-8"
  | noParent => "failed to create whole tree"

inductive FileEntry where
  | dir
  | file (content : ByteArray)

instance : DecidableEq FileEntry
  | .dir, .dir => isTrue rfl
  | .dir, .file _ => isFalse nofun
  | .file _, .dir => isFalse nofun
  | .file left, .file right =>
      decidable_of_iff (left.data = right.data) (by cases left; cases right; simp)

/-- The names from the root down to a place. -/
abbrev Place := List String

/-- What stands at each place below the root, which is itself a directory. -/
structure FileTree where
  entries : Std.ExtTreeMap Place FileEntry := ∅

/-- Operations on a file tree; the tree outlives a fault. -/
abbrev Disk (α : Type) := ExceptT IoFault (StateM FileTree) α

namespace FileTree

def find? (tree : FileTree) (place : Place) : Option FileEntry :=
  if place = [] then some .dir else tree.entries[place]?

def insert (tree : FileTree) (place : Place) (entry : FileEntry) : FileTree :=
  { entries := tree.entries.insert place entry }

def erase (tree : FileTree) (place : Place) : FileTree :=
  { entries := tree.entries.erase place }

def files (tree : FileTree) : List (Place × ByteArray) :=
  tree.entries.toList.filterMap fun (place, entry) =>
    match entry with
    | .dir => none
    | .file content => some (place, content)

/-- The places strictly below `place`, with the names that lead there. -/
def below (tree : FileTree) (place : Place) : List (Place × FileEntry) :=
  tree.entries.toList.filterMap fun (other, entry) =>
    if place.isPrefixOf other && other != place then some (other.drop place.length, entry) else none

/-- The longest name of a directory entry, in bytes. -/
def nameLimit : Nat := 255

/-- What stands under `name` in the directory at `place`. -/
def lookup (tree : FileTree) (place : Place) (name : String) : Except IoFault (Option FileEntry) :=
  if nameLimit < name.utf8ByteSize then .error .nameTooLong else .ok (tree.find? (place ++ [name]))

/-- The directory that a piece of a path leads to from the directory at `place`. -/
def enter (tree : FileTree) (place : Place) (piece : String) : Except IoFault Place :=
  if piece = "." then .ok place
  else if piece = ".." then .ok place.dropLast
  else do
    match ← tree.lookup place piece with
    | none => .error .notFound
    | some (.file _) => .error .notDirectory
    | some .dir => .ok (place ++ [piece])

/-- Where a path ends: under a name in a directory, or at a directory that the path names by dots.
`slash` tells that a slash follows. -/
structure Target where
  dir : Place
  name : Option String
  slash : Bool
  deriving Repr, DecidableEq

/-- Follows the pieces of a path up to the last one. -/
def follow (tree : FileTree) (slash : Bool) : Place → List String → Except IoFault Target
  | place, [] => .ok ⟨place, none, slash⟩
  | place, [piece] =>
      if piece = "." then .ok ⟨place, none, slash⟩
      else if piece = ".." then .ok ⟨place.dropLast, none, slash⟩
      else .ok ⟨place, some piece, slash⟩
  | place, piece :: rest => do tree.follow slash (← tree.enter place piece) rest

def target (tree : FileTree) (path : Path) : Except IoFault Target :=
  if path.hasZero then .error .zeroInName
  else if path.text.isEmpty then .error .notFound
  else tree.follow (path.text.toList.getLast? == some '/') [] path.pieces

def stat (tree : FileTree) (path : Path) : Except IoFault FileEntry := do
  let target ← tree.target path
  match target.name with
  | none => .ok .dir
  | some name =>
      match ← tree.lookup target.dir name with
      | none => .error .notFound
      | some .dir => .ok .dir
      | some (.file content) => if target.slash then .error .notDirectory else .ok (.file content)

def present (tree : FileTree) (path : Path) : Bool :=
  match tree.stat path with
  | .ok _ => true
  | .error _ => false

def isFile (tree : FileTree) (path : Path) : Bool :=
  match tree.stat path with
  | .ok (.file _) => true
  | _ => false

def isDir (tree : FileTree) (path : Path) : Bool :=
  match tree.stat path with
  | .ok .dir => true
  | _ => false

/-- The place of the directory or file that a path leads to. -/
def place? (tree : FileTree) (path : Path) : Option Place :=
  match tree.stat path, tree.target path with
  | .ok _, .ok target => some (target.dir ++ target.name.toList)
  | _, _ => none

def read (tree : FileTree) (path : Path) : Except IoFault ByteArray := do
  match ← tree.stat path with
  | .dir => .error .isDirectory
  | .file content => .ok content

def readText (tree : FileTree) (path : Path) : Except IoFault String := do
  match String.fromUTF8? (← tree.read path) with
  | some text => .ok text
  | none => .error .notText

def makeDir (tree : FileTree) (path : Path) : Except IoFault FileTree := do
  let target ← tree.target path
  match target.name with
  | none => .error .alreadyExists
  | some name =>
      match ← tree.lookup target.dir name with
      | some _ => .error .alreadyExists
      | none => .ok (tree.insert (target.dir ++ [name]) .dir)

/-- Puts a finished file in place of whatever file a path names. -/
def replace (tree : FileTree) (path : Path) (content : ByteArray) : Except IoFault FileTree := do
  if path.hasZero then throw .invalidArgument
  let target ← tree.target path
  match target.name with
  | none => .error .busy
  | some name =>
      match ← tree.lookup target.dir name with
      | some .dir => if target.slash then .error .notDirectory else .error .isDirectory
      | _ =>
          if target.slash then .error .notDirectory
          else .ok (tree.insert (target.dir ++ [name]) (.file content))

def unlink (tree : FileTree) (path : Path) : Except IoFault FileTree := do
  let target ← tree.target path
  match target.name with
  | none => .error .isDirectory
  | some name =>
      match ← tree.lookup target.dir name with
      | none => .error .notFound
      | some .dir => .error .isDirectory
      | some (.file _) =>
          if target.slash then .error .notDirectory else .ok (tree.erase (target.dir ++ [name]))

end FileTree

namespace Disk

/-- Runs an operation that changes the tree only when it succeeds. -/
def change (step : FileTree → Except IoFault FileTree) : Disk Unit := do
  match step (← get) with
  | .ok tree => set tree
  | .error fault => throw fault

def look {α : Type} (question : FileTree → Except IoFault α) : Disk α := do
  match question (← get) with
  | .ok answer => pure answer
  | .error fault => throw fault

/-- One directory, which may be there already. -/
def ensureDir (path : Path) : Disk Unit := do
  match (← get).makeDir path with
  | .ok tree => set tree
  | .error fault => if (← get).isDir path then pure () else throw fault

/-- A directory whose missing ancestors, innermost first in `above`, are made before it. -/
def ensureDirs (path : Path) : List Path → Disk Unit
  | [] => do
      match (← get).makeDir path with
      | .error .notFound => throw .noParent
      | _ => ensureDir path
  | parent :: above => do
      match (← get).makeDir path with
      | .error .notFound => do
          ensureDirs parent above
          ensureDir path
      | _ => ensureDir path

/-- The paths above a path, innermost first, down to the last one that is not empty. -/
def pathsAbove (path : Path) : List Path :=
  let parts := path.parts
  ((List.range parts.length).drop 1).reverse.map fun count => Path.ofParts (parts.take count)

def createDirAll (path : Path) : Disk Unit :=
  if path.text.isEmpty then pure () else ensureDirs path (pathsAbove path)

/-- Replaces a file so that a reader sees either the old content or the new. -/
def writeAtomic (path : Path) (content : ByteArray) : Disk Unit := do
  let dir := match path.parent? with
    | some parent => if parent.text.isEmpty then ⟨"."⟩ else parent
    | none => ⟨"."⟩
  createDirAll dir
  change (·.replace path content)

end Disk

end SourceAtlas
