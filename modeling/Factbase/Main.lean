import Factbase.Command.Run
import Factbase.Files.Stored

/-!
# The program

The files that a command line may concern are read into a file tree, the
command runs on the tree, and what it has changed is written back.
-/

namespace Factbase

/-- Read what is at a place of the disk, and what is in it down to a depth. -/
def readPlace (t : FileTree) (place : Place) (depth : Nat) : IO FileTree := do
  match ← (IO.FS.realPath (FileTree.pathOf place).text).toBaseIO with
  | .error _ => return t
  | .ok found =>
    if ← found.isDir then
      let t := t.put place .directory
      match depth with
      | 0 => return t
      | depth + 1 =>
        (← found.readDir).toList.foldlM
          (fun t entry => readPlace t (place ++ [entry.fileName]) depth) t
    else
      return t.put place (.ofBytes (← IO.FS.readBinFile found).toList)

/-- Read what is on the way to a path, and what it names down to a depth. -/
def readPath (t : FileTree) (depth : Nat) (p : Path) : IO FileTree := do
  let step (state : FileTree × Place) (name : String) : IO (FileTree × Place) := do
    let place := FileTree.enter state.2 name
    return (← readPlace state.1 place 0, place)
  let (t, place) ← p.steps.foldlM step (t, t.start p)
  readPlace t place depth

/-- The paths that a command names. -/
def Command.paths : Command → List Path
  | .create _ _ files _ => files
  | .load files _ => files
  | .dump _ output => output.toList
  | _ => []

/-- Read the files that an invocation may concern. -/
def readFiles (i : Invocation) : IO FileTree := do
  let working : Path := ⟨(← IO.currentDir).toString⟩
  let t ← readPath (.startingAt working.names) 0 (i.configuration.getD Configuration.defaultFile)
  match i.settings t with
  | .error _ => return t
  | .ok settings =>
    let t ← readPath t 3 settings.root
    let t ← settings.schemas.toList.foldlM (readPath · 1 ·) t
    i.command.paths.foldlM (readPath · 0 ·) t

/-- Write what has changed in a tree to the disk. -/
def writeFiles (before after : FileTree) : IO Unit := do
  for (place, node) in after.nodes.entries do
    if before.node? place ≠ some node then
      let path := (FileTree.pathOf place).text
      match node.toBytes? with
      | some bytes => IO.FS.writeBinFile path ⟨bytes.toArray⟩
      | none => IO.FS.createDirAll path

end Factbase

open Factbase in
/-- Run the command line: the exit code is 2 for one that makes no sense, and 1 for
a command that fails. -/
def main (arguments : List String) : IO UInt32 := do
  match Invocation.read arguments with
  | none =>
    IO.eprintln "usage: factdb [OPTIONS] [COMMAND]"
    return 2
  | some i =>
    let started ← IO.monoMsNow
    let before ← readFiles i
    let (after, output, ending) := i.execute before
    writeFiles before after
    IO.print (output ((← IO.monoMsNow) - started))
    match ending with
    | .ok () => return 0
    | .error e =>
      IO.eprintln ("error: " ++ e.message)
      return 1
