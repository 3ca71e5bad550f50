import Factbase.Error
import Factbase.Files.Path
import Factbase.Store.Disk

/-!
# File trees

A tree of directories and files, with a working directory where relative
paths start. It is kept as a map from places to what is there; a place is
the list of the names on the way from the root.

A path is followed step by step, and each step but the last must be a
directory, also where `..` leads out of it again.
-/

namespace Factbase

/-- The names on the way from the root to a node. -/
abbrev Place := List String

/-- What can be at a place. -/
inductive FileNode where
  | directory
  | file (bytes : Bytes)
  /-- A file that holds the tables of a store. -/
  | database (t : Tables)
deriving DecidableEq

/-- Directories and files, and the directory where relative paths start. -/
structure FileTree where
  nodes : SortedMap Place FileNode
  working : Place
deriving DecidableEq

namespace FileTree

/-- A tree whose only directories are those on the way to the working directory. -/
def startingAt (working : Place) : FileTree :=
  ⟨.ofList ((List.range (working.length + 1)).map fun n => (working.take n, .directory)), working⟩

/-- What is at a place. -/
def node? (t : FileTree) (place : Place) : Option FileNode := t.nodes.get? place

/-- Put something at a place. -/
def put (t : FileTree) (place : Place) (n : FileNode) : FileTree :=
  { t with nodes := t.nodes.insert place n }

/-! ## Following paths -/

/-- The longest name and the longest path that there can be, in bytes. -/
def maxNameBytes : Nat := 255
def maxPathBytes : Nat := 4095

/-- A path has at least one character, and none of code zero. -/
def checkText (p : Path) : Except FileFault Unit :=
  if p.text.toList.contains '\x00' then .error .nulByte
  else if p.text.isEmpty then .error .notFound
  else .ok ()

/-- A path that is followed as a whole is also limited in its length. -/
def checkPath (p : Path) : Except FileFault Unit := do
  checkText p
  if p.text.utf8ByteSize > maxPathBytes then throw .nameTooLong

/-- The place that a name leads to. -/
def enter (here : Place) (name : String) : Place :=
  if name = "." then here else if name = ".." then here.dropLast else here ++ [name]

/-- Steps can be taken only from directories. -/
def checkDirectory (t : FileTree) (here : Place) : Except FileFault Unit :=
  match t.node? here with
  | some .directory => .ok ()
  | some _ => .error .notADirectory
  | none => .error .notFound

/-- Take one step. -/
def step (t : FileTree) (here : Place) (name : String) : Except FileFault Place := do
  t.checkDirectory here
  if name.utf8ByteSize > maxNameBytes then throw .nameTooLong
  return enter here name

/-- Where a path starts. -/
def start (t : FileTree) (p : Path) : Place := if p.isAbsolute then [] else t.working

/-- The place that steps from where a path starts lead to, where something may be or
not. -/
def findNew (t : FileTree) (p : Path) (steps : List String) : Except FileFault Place := do
  checkPath p
  steps.foldlM t.step (t.start p)

/-- A place and what is there. -/
def existing (t : FileTree) (place : Place) : Except FileFault (Place × FileNode) :=
  match t.node? place with
  | some n => .ok (place, n)
  | none => .error .notFound

/-- The place of what a path names, and what is there. -/
def find (t : FileTree) (p : Path) : Except FileFault (Place × FileNode) := do
  t.existing (← t.findNew p p.steps)

/-- The place of what a path names, and what is there, for a path of any length: one
that is followed name by name has only its names limited. -/
def resolve (t : FileTree) (p : Path) : Except FileFault (Place × FileNode) := do
  checkText p
  t.existing (← p.steps.foldlM t.step (t.start p))

/-- Whether a path names a directory. -/
def isDirectory (t : FileTree) (p : Path) : Bool :=
  match t.find p with
  | .ok (_, .directory) => true
  | _ => false

/-- Whether a path names a file. -/
def isFile (t : FileTree) (p : Path) : Bool :=
  match t.find p with
  | .ok (_, .directory) | .error _ => false
  | .ok _ => true

/-- The path of a place. -/
def pathOf (place : Place) : Path := ⟨"/" ++ "/".intercalate place⟩

/-! ## Reading -/

/-- The size of a file in bytes. -/
def sizeOf (n : FileNode) : Nat :=
  match n with
  | .file bytes => bytes.length
  | _ => 0

/-- The text of a file. -/
def textOf : FileNode → Except FileFault String
  | .directory => .error .isADirectory
  | .database _ => .error .notUtf8
  | .file bytes =>
    match Binary.text? bytes with
    | some s => .ok s
    | none => .error .notUtf8

/-- The text of the file that a path names. -/
def readText (t : FileTree) (p : Path) : Except FileFault String := do
  textOf (← t.find p).2

/-- The names in a directory, in order. -/
def list (t : FileTree) (p : Path) : Except FileFault (List String) := do
  match ← t.find p with
  | (place, .directory) =>
    return t.nodes.keys.filterMap fun q => if q.dropLast = place then q.getLast? else none
  | _ => throw .notADirectory

/-! ## Writing -/

/-- Write a file, which may be there already. -/
def write (t : FileTree) (p : Path) (bytes : Bytes) : Except FileFault FileTree := do
  let place ← t.findNew p p.steps
  match t.node? place with
  | some .directory => throw .isADirectory
  | _ => return t.put place (.file bytes)

/-- Remove what a path names, with all that is in it. -/
def remove (t : FileTree) (p : Path) : Except FileFault FileTree := do
  let (place, _) ← t.find p
  return { t with nodes := t.nodes.filter fun q _ => !place.isPrefixOf q }

/-- Make a directory. A slash at the end of its path is of no account. -/
def makeDirectory (t : FileTree) (p : Path) : Except FileFault FileTree := do
  let place ← t.findNew p p.names
  if (t.node? place).isSome then throw .exists else return t.put place .directory

/-- Make directories in turn. Those that are there already are left as they are. -/
def makeAll (t : FileTree) : List Path → FileTree × Except FileFault Unit
  | [] => (t, .ok ())
  | p :: ps =>
    match t.makeDirectory p with
    | .ok next => next.makeAll ps
    | .error e => if e = .exists && t.isDirectory p then t.makeAll ps else (t, .error e)

/-- Those of some paths, given with the longest first, whose directories are
missing: the ones before the first that can be made or is there. -/
def missing (t : FileTree) : List Path → Except FileFault (List Path)
  | [] => .ok []
  | p :: ps =>
    match t.makeDirectory p with
    | .ok _ => .ok [p]
    | .error .notFound => (p :: ·) <$> t.missing ps
    | .error e => if e = .exists && t.isDirectory p then .ok [] else .error e

/-- Make a directory and those on the way to it. -/
def makeDirectories (t : FileTree) (p : Path) : FileTree × Except FileFault Unit :=
  match t.missing p.ancestors with
  | .ok ps => t.makeAll ps.reverse
  | .error e => (t, .error e)

end FileTree

end Factbase
