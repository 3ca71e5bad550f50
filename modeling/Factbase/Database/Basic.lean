import Factbase.Ingest.Dump
import Factbase.Ingest.Staging
import Factbase.Query.Results
import Factbase.Schema.Codec
import Factbase.Store.Backend
import Factbase.Store.Ownership

/-!
# Databases

A database is a store together with the schema that its facts are stored
under. It is filled while it is building, and finalizing seals it; a
build that fails or is given up is incomplete, and stays so.

While a database is building its schema follows the live one, which may
change in between: it must still define every predicate that has facts
by the same types. The schema is written to the store when the database
is created and when it is finalized.
-/

namespace Factbase

/-- A database. -/
structure Database where
  repo : Repo
  store : Store
  /-- The schema that the facts are stored under. -/
  stored : Schema

namespace Database

def state (db : Database) : StoreState := FactStore.state db.store

/-- The database in another state. -/
def setState (db : Database) (state : StoreState) : Database :=
  { db with store := FactStore.setState db.store state }

/-- The number of facts. -/
def factCount (db : Database) : Nat := (FactStore.statistics db.store).total.count

/-- `name/hash (state, n facts)` -/
def describe (db : Database) : String :=
  db.repo.render ++ " (" ++ db.state.render ++ ", " ++ toString db.factCount ++ " facts)"

/-! ## Beginning -/

/-- A new database in a store. -/
def create (repo : Repo) (store : Store) (live : Schema) : Database :=
  ⟨repo, FactStore.setState (FactStore.saveSchema store live.toBytes) .building, live⟩

/-- The database that a store holds. A build cannot be taken up again. -/
def reopen (repo : Repo) (store : Store) : Except Error Database := do
  match FactStore.loadSchema store with
  | none => throw (.format (.noStoredSchema repo))
  | some bytes =>
    let db : Database := ⟨repo, store, ← (Schema.ofBytes bytes).mapError .format⟩
    return if db.state = .building then db.setState .incomplete else db

/-! ## Building -/

/-- Facts can be added, and the build ended, only while the database is building. -/
def checkBuilding (db : Database) : Except Error Unit :=
  match db.state with
  | .building => .ok ()
  | .complete => .error .storeSealed
  | .incomplete => .error (.incomplete .abandoned)

/-- Whether two schemas define a predicate by the same types. -/
def sameTypes (old new : Schema) (p : Predicate) : Bool :=
  match old.get? p, new.get? p with
  | some d, some e => d.key = e.key && d.value = e.value
  | _, _ => false

/-- The database with the live schema as its own. -/
def follow (db : Database) (live : Schema) : Except Error Database :=
  match (FactStore.statistics db.store).tallies.keys.find? (!sameTypes db.stored live ·) with
  | some p => .error (.type (.definitionChanged p db.repo))
  | none => .ok { db with stored := live }

/-- The database with the facts of a file. -/
def addFile (db : Database) (f : FactFile) : Except Error Database := do
  let batch ← f.stage db.stored db.store
  return { db with store := ← FactStore.commit db.store batch }

/-- Add the facts of a file; the answer is how many are new. Any failure leaves
none of them behind, and the database incomplete. -/
def ingest (db : Database) (live : Schema) (f : FactFile) : Database × Except Error Nat :=
  match db.checkBuilding with
  | .error e => (db, .error e)
  | .ok () =>
    match db.follow live with
    | .error e => (db.setState .incomplete, .error e)
    | .ok followed =>
      match followed.addFile f with
      | .error e => (followed.setState .incomplete, .error e)
      | .ok filled =>
        let before := (FactStore.nextId db.store).number.toNat
        (filled, .ok ((FactStore.nextId filled.store).number.toNat - before))

/-- Write the live schema to the store and seal it. -/
def finalize (db : Database) (live : Schema) : Except Error Database := do
  db.checkBuilding
  let followed ← db.follow live
  return { followed with
    store := FactStore.setState (FactStore.saveSchema followed.store live.toBytes) .complete }

/-- Give up the build. -/
def abandon (db : Database) : Except Error Database := do
  db.checkBuilding
  return db.setState .incomplete

/-! ## Reading -/

def lookup (db : Database) (id : FactId) : Option Fact := FactStore.lookup db.store id

def statistics (db : Database) : Statistics := FactStore.statistics db.store

/-- Run a compiled query. -/
def execute (db : Database) (q : CompiledQuery) (o : QueryOptions) : Except Error QueryResults :=
  q.execute db.store db.stored o

/-- All facts as the groups of a fact file. The database must be complete. -/
def dump (db : Database) : Except Error (List FactGroup) :=
  if db.state = .complete then FactStore.dump db.store db.stored
  else .error (.incomplete (.database db.repo db.state))

/-- The owners of every fact. -/
def ownership (db : Database) : Except Error Ownership := Ownership.compute db.store

end Database

end Factbase
