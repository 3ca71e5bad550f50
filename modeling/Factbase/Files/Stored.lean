import Factbase.Files.Tree

/-!
# Stored files

The bytes that a disk holds for the nodes of a file tree. A database file
begins with a mark, and the encoded tables follow.
-/

namespace Factbase

instance : Binary Tables where
  encode t := encode t.facts ++ encode t.content ++ encode t.numbers ++ encode t.schemas
  decode := return ⟨← decode, ← decode, ← decode, ← decode⟩

namespace FileNode

/-- The bytes that mark a database file: `FDBT`. -/
def databaseMark : Bytes := [0x46, 0x44, 0x42, 0x54]

/-- The bytes of a file. -/
def toBytes? : FileNode → Option Bytes
  | .directory => none
  | .file bytes => some bytes
  | .database t => some (databaseMark ++ encode t)

/-- The file that has the given bytes. -/
def ofBytes (bytes : Bytes) : FileNode :=
  if databaseMark.isPrefixOf bytes then
    match (decode (bytes.drop databaseMark.length) : Option (Tables × Bytes)) with
    | some (t, []) => .database t
    | _ => .file bytes
  else .file bytes

end FileNode

end Factbase
