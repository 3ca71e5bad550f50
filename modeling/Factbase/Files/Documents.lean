import Factbase.Files.Tree
import Factbase.Ingest.FactFile
import Factbase.Schema.Registration

/-!
# Documents in files

Schemas and facts come from files. A directory gives a snapshot: the
declarations of its schema files, in the order of the file names, on top
of the builtin schema. All files are read before the first one is parsed.
-/

namespace Factbase

/-- A fault of the file system at a path, as an error. -/
def atPath {α : Type} (p : Path) (r : Except FileFault α) : Except Error α :=
  r.mapError fun e => .storage (.file p.text e)

namespace FileTree

/-- The fact file that a path names. Messages call it by the path. -/
def readFacts (t : FileTree) (p : Path) : Except Error FactFile := do
  let unreadable {α : Type} (r : Except FileFault α) : Except Error α :=
    r.mapError fun e => .ingestion p.text (.unreadable e)
  let (_, node) ← unreadable (t.find p)
  if sizeOf node > maxFactFileBytes then
    throw (.ingestion p.text (.tooLarge (sizeOf node) maxFactFileBytes))
  FactFile.ofText p.text (← unreadable (textOf node))

/-- What follows the dot in the names of schema files. -/
def schemaExtension : String := "angle"

/-- The paths of the schema files of a directory. -/
def schemaPaths (t : FileTree) (dir : Path) : Except Error (List Path) := do
  let names ← atPath dir (t.list dir)
  return (names.map dir.join).filter fun p => p.extension? = some schemaExtension

/-- The snapshot that a directory of schema files gives. -/
def readSchema (t : FileTree) (dir : Path) : Except Error Schema := do
  let paths ← t.schemaPaths dir
  let texts ← paths.mapM fun p => atPath p (t.readText p)
  texts.foldlM (fun s source => do s.registerAll (← Schema.parse source)) .builtin

end FileTree

end Factbase
