import Factbase.Store.Index

/-!
# Stores on disk

A store that keeps its facts encoded in the tables of a database file.
Tables are ordered by key and change by whole transactions. The indexes
are not stored: they are rebuilt from the tables when a file is opened,
and kept up to date from then on.
-/

namespace Factbase

/-- The tables of a database file: encoded facts by id, ids by content digest,
numbers by name, and encoded schemas by name. -/
structure Tables where
  facts : SortedMap FactId Bytes
  content : SortedMap Digest FactId
  numbers : SortedMap String UInt64
  schemas : SortedMap String Bytes
deriving DecidableEq

namespace Tables

/-- The tables of a new file. -/
def empty : Tables := ⟨∅, ∅, ∅, ∅⟩

instance : Inhabited Tables := ⟨empty⟩

/-- The name under which the next id is kept. -/
def nextName : String := "next_id"

/-- The name under which the state is kept. -/
def stateName : String := "state"

/-- The name under which the schema is kept. -/
def schemaName : String := "stored"

/-- The tables with one more fact. -/
def addFact (t : Tables) (digest : Digest) (f : Fact) : Tables :=
  { t with facts := t.facts.insert f.id (encode f), content := t.content.insert digest f.id }

/-- The fact that is stored under an id. -/
def fact? (t : Tables) (id : FactId) : Option Fact :=
  (t.facts.get? id).bind fun bytes => ((decode bytes : Option (Fact × Bytes))).map (·.1)

/-- The content digest that is stored for a fact, or else the one it has. -/
def digestOf (t : Tables) (id : FactId) (f : Fact) : Digest :=
  match t.content.entries.reverse.find? fun e => e.2 == id with
  | some e => e.1
  | none => contentDigest f.predicate f.key f.value

/-- The stored facts in the order of their ids, with their content digests. -/
def factList (t : Tables) : Except Error (List (Digest × Fact)) :=
  t.facts.entries.mapM fun e =>
    match (decode e.2 : Option (Fact × Bytes)) with
    | some (f, _) => .ok (t.digestOf e.1 f, f)
    | none => .error (.format .malformed)

end Tables

/-- A database file that has been opened. -/
structure DiskStore where
  tables : Tables
  index : FactIndex
  next : FactId
  state : StoreState
deriving DecidableEq

namespace DiskStore

/-- Open a database file with the given tables. -/
def ofTables (t : Tables) : Except Error DiskStore := do
  let facts ← t.factList
  return {
    tables := t
    index := FactIndex.empty.addAll facts
    next := ((t.numbers.get? Tables.nextName).map FactId.mk).getD .first
    state := ((t.numbers.get? Tables.stateName).map .ofCode).getD .building }

/-- The store in a new file. -/
def empty : DiskStore := ⟨.empty, .empty, .first, .building⟩

instance : Inhabited DiskStore := ⟨empty⟩

/-- Append the facts of a batch, in one transaction. -/
def commit (s : DiskStore) (b : FactBatch) : Except Error DiskStore := do
  b.checkCommit s.next s.state
  if b.staged.isEmpty then return s
  let next := b.facts.foldl (fun _ f => f.id.next) s.next
  let tables := b.staged.foldl (fun t e => t.addFact e.1 e.2) s.tables
  return { s with
    tables := { tables with numbers := tables.numbers.insert Tables.nextName next.number }
    index := s.index.addAll b.staged
    next := next }

/-- Change the state, in one transaction. -/
def setState (s : DiskStore) (state : StoreState) : DiskStore :=
  { s with
    tables := { s.tables with numbers := s.tables.numbers.insert Tables.stateName state.code }
    state := state }

/-- Store the encoding of a schema, in one transaction. -/
def saveSchema (s : DiskStore) (bytes : Bytes) : DiskStore :=
  { s with
    tables := { s.tables with schemas := s.tables.schemas.insert Tables.schemaName bytes } }

instance : FactStore DiskStore where
  lookup s id := s.tables.fact? id
  find s digest := s.index.content.get? digest
  scan s p := s.index.scan p
  seek s p key := s.index.seek p key
  predicates s := s.index.byPredicate.keys
  nextId := next
  state := state
  setState := setState
  statistics s := s.index.stats
  size s := s.tables.facts.size
  commit := commit
  saveSchema := saveSchema
  loadSchema s := s.tables.schemas.get? Tables.schemaName

/-- Close the file and open it again. -/
def reopen (s : DiskStore) : Except Error DiskStore := ofTables s.tables

end DiskStore

end Factbase
