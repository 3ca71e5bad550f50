import Factbase.Database.Basic
import Factbase.Files.Documents

/-!
# Catalogs

A catalog is a set of databases and the live schema that they are built
under. Its databases are in memory, or in files under a root directory:
the tables of `name/hash` are in a file in `<root>/<name>/<hash>`. What
happens to a database on disk is written to its file at once.

An operation on a catalog leaves a catalog behind also when it fails.
-/

namespace Factbase

/-- The directory of a catalog on disk, and where it is. -/
structure CatalogRoot where
  path : Path
  place : Place
deriving DecidableEq

/-- Databases and the live schema. -/
structure Catalog where
  files : FileTree
  /-- Without a root the databases are in memory. -/
  root : Option CatalogRoot
  live : Schema
  databases : SortedMap Repo Database

namespace Catalog

/-- An operation on a catalog. -/
abbrev Action (α : Type) := ExceptT Error (StateM Catalog) α

/-- An empty catalog in memory. -/
def inMemory (files : FileTree) (live : Schema) : Catalog := ⟨files, none, live, ∅⟩

/-! ## Databases -/

/-- The database with an identity. -/
def database (c : Catalog) (repo : Repo) : Except Error Database :=
  match c.databases.get? repo with
  | some db => .ok db
  | none => .error (.unknownDatabase repo)

/-- The databases that a filter selects, in the order of their identities. -/
def list (c : Catalog) (filter : Option String) : List Database :=
  c.databases.values.filter fun db =>
    match filter with
    | some f => db.repo.matchesFilter f
    | none => true

/-- The name of the file of a database. -/
def fileName : String := "facts.redb"

/-- Where the file of a database is. -/
def fileOf (root : CatalogRoot) (repo : Repo) : Place := root.place ++ [repo.name, repo.hash, fileName]

/-- A tree with the tables of a database written to its file, if the file is still
there. -/
def writeThrough (files : FileTree) (root : Option CatalogRoot) (db : Database) : FileTree :=
  match root, db.store with
  | some root, .disk s =>
    match files.node? (fileOf root db.repo) with
    | some (.database _) => files.put (fileOf root db.repo) (.database s.tables)
    | _ => files
  | _, _ => files

/-- The catalog with a database in its present form. -/
def put (c : Catalog) (db : Database) : Catalog :=
  { c with databases := c.databases.insert db.repo db, files := writeThrough c.files c.root db }

/-! ## The live schema -/

/-- Register the declarations of a text, all of them or none. -/
def register (source : String) : Action Unit := do
  let c ← get
  set { c with live := ← c.live.registerAll (← Schema.parse source) }

/-- Take the live schema from a directory of schema files. -/
def reload (dir : Path) : Action Unit := do
  let c ← get
  set { c with live := ← c.files.readSchema dir }

/-- The schema that queries are compiled for. -/
def schema (c : Catalog) (repo : Repo) (mode : SchemaMode) : Except Error Schema := do
  let db ← c.database repo
  return match mode with
    | .stored => db.stored
    | .current => c.live

/-! ## Queries -/

/-- Compile a query. -/
def compile (c : Catalog) (repo : Repo) (text : String) (mode : SchemaMode) :
    Except Error CompiledQuery := do
  CompiledQuery.ofText text (← c.schema repo mode) mode

/-- Compile a query and run it. -/
def query (c : Catalog) (repo : Repo) (text : String) (o : QueryOptions) :
    Except Error QueryResults := do
  let q ← c.compile repo text o.mode
  (← c.database repo).execute q o

end Catalog

end Factbase
