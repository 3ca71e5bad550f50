import Factbase.Catalog.Building
import Factbase.Command.Arguments
import Factbase.Configuration.Settings

/-!
# Commands

A command works on the catalog of the configured directory and prints
lines as it goes; what has been printed stays when it fails. Some lines
tell how long the command took, so the output is a function of the
milliseconds that have elapsed.

Printed documents are the same in either form of output: plain text, or
JSON for other programs. Remarks on progress are left out when the
command is to be quiet.
-/

namespace Factbase

/-- A text that may tell how many milliseconds have elapsed. -/
abbrev Output := Nat → String

/-- A catalog, what has been printed, and how to print. -/
structure Console where
  catalog : Catalog
  output : Output
  json : Bool
  quiet : Bool

namespace Console

/-- A command under way. -/
abbrev Action (α : Type) := ExceptT Error (StateM Console) α

/-- An operation on the catalog. -/
def onCatalog {α : Type} (a : Catalog.Action α) : Action α := fun console =>
  let (r, catalog) := a.run console.catalog
  (r, { console with catalog })

/-- Print a text. -/
def printOutput (o : Output) : Action Unit :=
  modify fun console => { console with output := fun ms => console.output ms ++ o ms }

/-- Print a line. -/
def printLine (line : String) : Action Unit := printOutput fun _ => line ++ "\n"

/-- Print a document. -/
def printJson (j : Json) : Action Unit := printLine (j.pretty "")

/-- Print a remark on progress. -/
def remark (o : Output) : Action Unit := do
  if !(← get).quiet then printOutput fun ms => o ms ++ "\n"

end Console

namespace Command

open Console

/-- A number in a document. -/
def number (n : Nat) : Json := .nat (UInt64.ofNat n)

/-- The database with an identity. -/
def database (repo : Repo) : Action Database := do (← get).catalog.database repo

/-! ## Files -/

/-- The full path of a file, which must be a regular one. -/
def factFile (files : FileTree) (p : Path) : Except Error Path := do
  let (place, node) ← (files.resolve p).mapError fun e => .storage (.badFilePath p.text e)
  if node = .directory then throw (.storage (.notRegular p.text))
  return FileTree.pathOf place

/-- The full paths of fact files. -/
def factFiles (ps : List Path) : Action (List Path) := do
  let files := (← get).catalog.files
  (ps.mapM (factFile files) : Except Error (List Path))

/-- The full path of a file to be written, whose directory must be there. -/
def outputFile (files : FileTree) (p : Path) : Except Error Path := do
  let dir := match p.parent? with
    | some q => if q.text = "" then ⟨"."⟩ else q
    | none => ⟨"."⟩
  let (place, node) ← (files.resolve dir).mapError fun e => .storage (.badOutputDirectory dir.text e)
  if node ≠ .directory then throw (.storage (.outputNotADirectory dir.text))
  match p.fileName? with
  | some name => return (FileTree.pathOf place).join name
  | none => throw (.storage .noOutputName)

/-! ## Building -/

def runCreate (name : String) (hash : Option String) (files : List Path) (finalize : Bool) :
    Action Unit := do
  let paths ← factFiles files
  let repo := (← onCatalog (Catalog.create name hash)).repo
  remark fun _ => "Created " ++ repo.render
  let added ← onCatalog (Catalog.ingestPaths repo paths)
  if finalize then onCatalog (Catalog.finalize repo)
  let db ← database repo
  if (← get).json then
    printJson (.object [("db", .string repo.render), ("state", .string db.state.render),
      ("files", number paths.length), ("facts_added", number added)])
  else printLine db.describe

def runLoad (files : List Path) (repo : Option Repo) : Action Unit := do
  let paths ← factFiles files
  let db ← database (← onCatalog (Catalog.load repo paths))
  if (← get).json then
    printJson (.object [("db", .string db.repo.render), ("state", .string db.state.render),
      ("files", number paths.length), ("facts", number db.factCount)])
  else
    printLine db.describe
    remark fun ms =>
      "Loaded " ++ toString paths.length ++ " file(s) in " ++ toString ms ++ " ms"

/-! ## Queries -/

/-- The document of the results of a query. -/
def resultsJson (q : CompiledQuery) (r : QueryResults) (debug : Bool) (ms : Nat) : Json := .object <|
  [("results", .array (r.bindings.map (·.json))), ("truncated", .bool r.truncated),
    ("facts_searched", number r.searched), ("elapsed_ms", number ms)] ++
  (match r.profile with
    | some f => [("profile", .object (f.counts.entries.map fun e => (e.1.render, number e.2)))]
    | none => []) ++
  if debug then [("ir", .string q.plan.render), ("bytecode", .string q.program.render)] else []

def runQuery (repo : Repo) (text : String) (o : QueryOptions) (debug : Bool) : Action Unit := do
  let q ← (← get).catalog.compile repo text o.mode
  let json := (← get).json
  if debug && !json then printOutput fun _ => q.plan.render ++ q.program.render
  let r ← (← database repo).execute q o
  if json then printOutput fun ms => (resultsJson q r debug ms).pretty "" ++ "\n"
  else
    r.bindings.forM fun b => printLine b.json.compact
    printLine ""
    printOutput fun ms => toString r.bindings.length ++ " results, " ++ toString r.searched ++
      " facts searched, " ++ toString ms ++ " ms\n"
    if r.truncated then
      printLine ("results truncated at " ++ toString (o.limit.getD 0) ++ ", use --limit to see more")
    match r.profile with
    | some f =>
      printLine "facts searched:"
      printLine f.render
    | none => pure ()

/-! ## Inspection -/

/-- The document of a tally. -/
def tallyJson (t : Tally) : Json := .object [("count", number t.count), ("bytes", number t.bytes)]

def runStat (repo : Repo) : Action Unit := do
  let stats := (← database repo).statistics
  if (← get).json then
    printJson (.object
      [("predicates", .object (stats.tallies.entries.map fun e => (e.1.render, tallyJson e.2))),
        ("total", tallyJson stats.total), ("db", .string repo.render)])
  else printLine stats.render

def runList (filter : Option String) : Action Unit := do
  let dbs := (← get).catalog.list filter
  if (← get).json then
    printJson (.array (dbs.map fun db => .object [("db", .string db.repo.render),
      ("state", .string db.state.render), ("facts", number db.factCount)]))
  else
    if dbs.isEmpty then remark fun _ => "No databases"
    dbs.forM fun db => printLine db.describe

/-- The definitions whose names have the given start; there must be one. -/
def definitions (s : Schema) (start : Option String) : Except Error (List Definition) :=
  match start with
  | none => .ok s.predicates.values
  | some start =>
    match (s.withStart start).filterMap s.get? with
    | [] => .error (.unresolved (.unknown start))
    | found => .ok found

def runSchema (start : Option String) (repo : Option Repo) (names : Bool) : Action Unit := do
  let catalog := (← get).catalog
  let schema ← match repo with
    | some repo => catalog.schema repo .stored
    | none => pure catalog.live
  let found ← definitions schema start
  if (← get).json then
    printJson (.array (found.map fun d =>
      if names then .string d.predicate.render
      else .object [("predicate", .string d.predicate.render), ("definition", .string d.render),
        ("derived", .bool d.isDerived)]))
  else found.forM fun d => printLine (if names then d.predicate.render else d.render)

/-! ## Dumps and owners -/

def runDump (repo : Repo) (output : Option Path) : Action Unit := do
  let groups ← (← database repo).dump
  let text := FactGroup.fileText groups
  match output with
  | none => printLine text
  | some p =>
    let console ← get
    let p ← outputFile console.catalog.files p
    let files ← atPath p (console.catalog.files.write p (Binary.textBytes text))
    set { console with catalog := { console.catalog with files } }
    if console.json then
      printJson (.object [("db", .string repo.render), ("output", .string p.text),
        ("predicates", number groups.length)])
    else remark fun _ => "Dumped " ++ repo.render ++ " to " ++ p.text

def runOwner (repo : Repo) (id : FactId) : Action Unit := do
  match (← (← database repo).ownership).get? id with
  | none => throw (.notFound (.factOf id repo))
  | some owners =>
    if (← get).json then
      printJson (.object [("id", .nat id.number),
        ("owners", .array (owners.toList.map fun o => .nat o.number))])
    else printLine (Ownership.describe owners)

/-! ## All commands -/

/-- Run a command. Its own options for queries go before the given ones. -/
def run (c : Command) (defaults : QueryOptions) : Action Unit :=
  match c with
  | .create name hash files finalize => runCreate name hash files finalize
  | .load files db => runLoad files db
  | .query db text limit expand mode profile debug =>
    runQuery db text
      { mode := mode.getD defaults.mode
        expand := expand.getD defaults.expand
        limit := limit <|> defaults.limit
        profile := profile || defaults.profile } debug
  | .stat db => runStat db
  | .list filter => runList filter
  | .schema start db names => runSchema start db names
  | .dump db output => runDump db output
  | .owner db id => runOwner db id

end Command

/-! ## Invocations -/

namespace Invocation

open Console

/-- What an invocation runs with. -/
def settings (i : Invocation) (files : FileTree) : Except Error Settings := do
  Settings.resolve (← Configuration.load files i.configuration) i.root i.schemas

/-- Read the schema files, open the catalog and run the command. -/
def run (i : Invocation) : Action Unit := do
  let settings ← i.settings (← get).catalog.files
  match settings.schemas with
  | some dir => onCatalog (Catalog.reload dir)
  | none => pure ()
  onCatalog (Catalog.openDirectory settings.root)
  i.command.run settings.query

/-- Run an invocation on a file tree: the tree that it leaves, what it prints, and
how it ends. -/
def execute (i : Invocation) (files : FileTree) : FileTree × Output × Except Error Unit :=
  let start : Console := ⟨.inMemory files .builtin, fun _ => "", i.json, i.quiet⟩
  let (r, console) := i.run.run start
  (console.catalog.files, console.output, r)

end Invocation

end Factbase
