import Factbase.Catalog.Basic

/-!
# Building databases

Databases are created, filled from fact files, and finalized or given up.
Each file is added as a whole or not at all. A file that fails leaves the
database incomplete, with the files before it; so does a file that cannot
be read, except where all files are read before a database is created.
-/

namespace Factbase.Catalog

/-! ## Creating -/

/-- The first of `0`, `1`, ... that no database of a name has for its hash. -/
def freshHash (c : Catalog) (name : String) : String :=
  (((List.range (c.databases.size + 1)).map toString).find? fun hash =>
    !c.databases.contains ⟨name, hash⟩).getD ""

/-- The tables of the file at a place. An empty file, or none, becomes a file
without facts. -/
def openFile (files : FileTree) (place : Place) : Except Error (FileTree × Tables) :=
  match files.node? place with
  | some (.database t) => .ok (files, t)
  | some .directory => .error (.storage (.database .isADirectory))
  | some (.file (_ :: _)) => .error (.storage (.database .notADatabase))
  | some (.file []) | none => .ok (files.put place (.database .empty), .empty)

/-- The store of the file of a database. -/
def openStore (root : CatalogRoot) (repo : Repo) : Action Store := do
  let (files, tables) ← openFile (← get).files (fileOf root repo)
  modify fun c => { c with files }
  return .disk (← DiskStore.ofTables tables)

/-- The store for a new database. -/
def newStore (repo : Repo) : Action Store := do
  let c ← get
  match c.root with
  | none => return .memory .empty
  | some root =>
    let dir := (root.path.join repo.name).join repo.hash
    let (files, made) := c.files.makeDirectories dir
    set { c with files }
    atPath dir made
    openStore root repo

/-- Create a building database. Without a hash it gets the first free one. -/
def create (name : String) (hash : Option String) : Action Database := do
  let c ← get
  let repo : Except RepoFault Repo := do
    Repo.checkName name
    match hash with
    | some h =>
      Repo.checkHash h
      return ⟨name, h⟩
    | none => return ⟨name, c.freshHash name⟩
  let repo ← repo.mapError fun e => Error.type (.repo e)
  if let some db := c.databases.get? repo then throw (.alreadyExists repo db.state)
  let db := Database.create repo (← newStore repo) c.live
  modify (·.put db)
  return db

/-! ## Filling -/

/-- Add the facts of a file to a database; the answer is how many are new. -/
def ingestFile (repo : Repo) (f : FactFile) : Action Nat := do
  let c ← get
  let (db, added) := (← c.database repo).ingest c.live f
  set (c.put db)
  added

/-- Add the facts of files in turn. -/
def ingest (repo : Repo) (files : List FactFile) : Action Nat := do
  discard ((← get).database repo)
  files.foldlM (fun added f => return added + (← ingestFile repo f)) 0

/-- Leave a database incomplete if it is still building. -/
def giveUp (repo : Repo) : Action Unit := do
  let c ← get
  match c.databases.get? repo with
  | some db => if db.state = .building then set (c.put (db.setState .incomplete))
  | none => pure ()

/-- Add the facts of the file that a path names. -/
def ingestPath (repo : Repo) (p : Path) : Action Nat := do
  match (← get).files.readFacts p with
  | .ok f => ingestFile repo f
  | .error e =>
    giveUp repo
    throw e

/-- Add the facts of the files that paths name, in turn. -/
def ingestPaths (repo : Repo) (paths : List Path) : Action Nat := do
  discard ((← get).database repo)
  paths.foldlM (fun added p => return added + (← ingestPath repo p)) 0

/-! ## Ending -/

/-- Seal a database. -/
def finalize (repo : Repo) : Action Unit := do
  let c ← get
  set (c.put (← (← c.database repo).finalize c.live))

/-- Give up the build of a database. -/
def abandon (repo : Repo) : Action Unit := do
  let c ← get
  set (c.put (← (← c.database repo).abandon))

/-- Fill a new database from files and seal it; a failure leaves it incomplete. -/
def build (repo : Repo) (files : List FactFile) : Action Unit :=
  tryCatch
    (do
      discard (ingest repo files)
      finalize repo)
    (fun e => do
      giveUp repo
      throw e)

/-- Create the database for files. Without an identity it is named for the first file. -/
def createFor (repo : Option Repo) (paths : List Path) : Action Database := do
  match repo, paths.head?.bind Path.stem? with
  | some repo, _ => create repo.name (some repo.hash)
  | none, some name => create name none
  | none, none => throw (.type .nothingToLoad)

/-- Create, fill and seal a database. -/
def load (repo : Option Repo) (paths : List Path) : Action Repo := do
  let c ← get
  let files ← (paths.mapM c.files.readFacts : Except Error (List FactFile))
  let db ← createFor repo paths
  build db.repo files
  return db.repo

/-! ## Opening -/

/-- The identities of the databases whose files are under a directory. -/
def discover (files : FileTree) (place : Place) : List Repo :=
  files.nodes.entries.filterMap fun (q, node) =>
    if !place.isPrefixOf q || node = .directory then none
    else
      match q.drop place.length with
      | [name, hash, file] => if file = fileName then some ⟨name, hash⟩ else none
      | _ => none

/-- The database that a file holds. -/
def attach (root : CatalogRoot) (repo : Repo) : Action Database := do
  let db ← Database.reopen repo (← openStore root repo)
  modify fun c => { c with files := writeThrough c.files (some root) db }
  return db

/-- Close all databases and open those under a directory, which is made if it is not
there. The catalog is in memory until all are open, and stays so when one cannot be
opened. -/
def openDirectory (path : Path) : Action Unit := do
  let (files, made) := (← get).files.makeDirectories path
  modify fun c => { c with files, root := none, databases := ∅ }
  atPath path made
  let (place, _) ← atPath path (files.find path)
  let root : CatalogRoot := ⟨path, place⟩
  let dbs ← (discover files place).mapM (attach root)
  modify fun c => { c with
    root := some root, databases := .ofList (dbs.map fun db => (db.repo, db)) }

end Factbase.Catalog
