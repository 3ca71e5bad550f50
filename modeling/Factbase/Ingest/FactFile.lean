import Factbase.Error
import Factbase.Json.Reader

/-!
# Fact files

A fact file is a JSON array of groups. A group has a predicate and the
facts of it; a fact has a key, and it may have a value and a number by
which the facts after it refer to it. A group or a fact may also be given
as the array of its members in order. Members that are not known are
passed over; one that is known may be given only once.
-/

namespace Factbase

/-- A fact as written in a file. -/
structure FactEntry where
  label : Option UInt64
  key : Json
  value : Option Json
deriving Inhabited

/-- The facts of one predicate. -/
structure FactGroup where
  predicate : String
  facts : List FactEntry
deriving Inhabited

/-- A fact file with the name that messages call it. -/
structure FactFile where
  name : String
  groups : List FactGroup
deriving Inhabited

/-- The largest fact file that is read, in bytes. -/
def maxFactFileBytes : Nat := 100 * 1024 * 1024

namespace FactEntry

/-- The members of an entry that have been read. -/
structure Parts where
  label : Option (Option UInt64)
  key : Option Json
  value : Option (Option Json)

/-- A number, or nothing. -/
def readLabel : Reader (Option UInt64) := do
  match ← Reader.document none with
  | .null => return none
  | .nat n => return some n
  | _ => failure

/-- A key: four containers are open around it. -/
def readKey : Reader Json := Reader.value (Reader.maxDepth - 4)

/-- A value, or nothing. -/
def readValue : Reader (Option Json) := do
  match ← Reader.value (Reader.maxDepth - 4) with
  | .null => return none
  | j => return some j

/-- One member of an entry. -/
def readMember (parts : Parts) (name : String) : Reader Parts := do
  match name with
  | "id" =>
    guard parts.label.isNone
    return { parts with label := some (← readLabel) }
  | "key" =>
    guard parts.key.isNone
    return { parts with key := some (← readKey) }
  | "value" =>
    guard parts.value.isNone
    return { parts with value := some (← readValue) }
  | _ =>
    Reader.skip
    return parts

/-- An entry. -/
def read : Reader FactEntry := do
  Reader.spaces
  match ← Reader.next with
  | '{' =>
    let parts ← Reader.members readMember ⟨none, none, none⟩
    return ⟨parts.label.join, ← parts.key, parts.value.join⟩
  | '[' =>
    let label ← readLabel
    Reader.spaces
    Reader.literal [',']
    let key ← readKey
    Reader.spaces
    if ← Reader.eat ']' then return ⟨label, key, none⟩
    Reader.literal [',']
    let value ← readValue
    Reader.spaces
    Reader.literal [']']
    return ⟨label, key, value⟩
  | _ => failure

end FactEntry

namespace FactGroup

/-- The members of a group that have been read. -/
structure Parts where
  predicate : Option String
  facts : Option (List FactEntry)

/-- The name of a predicate. -/
def readPredicate : Reader String := do
  Reader.spaces
  Reader.string

/-- The facts of a group. -/
def readFacts : Reader (List FactEntry) := do
  Reader.spaces
  Reader.literal ['[']
  Reader.elements FactEntry.read

/-- One member of a group. -/
def readMember (parts : Parts) (name : String) : Reader Parts := do
  match name with
  | "predicate" =>
    guard parts.predicate.isNone
    return { parts with predicate := some (← readPredicate) }
  | "facts" =>
    guard parts.facts.isNone
    return { parts with facts := some (← readFacts) }
  | _ =>
    Reader.skip
    return parts

/-- A group. -/
def read : Reader FactGroup := do
  Reader.spaces
  match ← Reader.next with
  | '{' =>
    let parts ← Reader.members readMember ⟨none, none⟩
    return ⟨← parts.predicate, ← parts.facts⟩
  | '[' =>
    let predicate ← readPredicate
    Reader.spaces
    Reader.literal [',']
    let facts ← readFacts
    Reader.spaces
    Reader.literal [']']
    return ⟨predicate, facts⟩
  | _ => failure

end FactGroup

namespace FactFile

/-- The groups of a file. -/
def readGroups : Reader (List FactGroup) := do
  Reader.spaces
  Reader.literal ['[']
  Reader.elements FactGroup.read

/-- The fact file that a text spells. -/
def ofText (name text : String) : Except Error FactFile :=
  match Reader.run readGroups text with
  | some groups => .ok ⟨name, groups⟩
  | none => .error (.ingestion name .notJson)

/-- The number of facts, not counting those that are defined inside others. -/
def size (f : FactFile) : Nat := f.groups.foldl (fun n g => n + g.facts.length) 0

end FactFile

end Factbase
