import Factbase.Proofs.Catalog.Moves
import Factbase.Proofs.Files
import Factbase.Proofs.Schema.Stored
import Factbase.Proofs.Store.Disk

/-!
# Catalogs on disk can be opened again

Each database of a catalog on disk has a file, and nothing else under the
directory looks like one (`Catalog.OnDisk`). All that happens to the
catalog keeps this, so closing it and opening the directory again gives
the databases that were there, each from the tables of its own store.

What comes back as the schema of a database is the one that was written
last. That happens when the database is created and when it is sealed;
in between the schema follows the live one in memory only.
-/

namespace Factbase

/-! ## Stores -/

/-- Tables that a machine can hold: fewer facts than there are ids, and rows whose length can
be written. -/
def Tables.Fit (t : Tables) : Prop :=
  t.facts.size < 2 ^ 64 - 1024 ∧ ∀ e ∈ t.facts.entries, e.2.length < 2 ^ 64

instance (t : Tables) : Decidable t.Fit := inferInstanceAs (Decidable (_ ∧ _))

/-- What is in memory is held already. -/
def Store.Fit : Store → Prop
  | .memory _ => True
  | .disk s => s.tables.Fit

instance : (s : Store) → Decidable s.Fit
  | .memory _ => inferInstanceAs (Decidable True)
  | .disk s => inferInstanceAs (Decidable s.tables.Fit)

namespace DiskStore

variable {s : DiskStore} {log : List Fact}

/-- A store that was filled here, or one that came from its tables and is filled no more. -/
def Sturdy (s : DiskStore) : Prop :=
  (∃ log, s.Keeps log) ∨ s.state ≠ .building ∧ s.reopen = .ok s

theorem Keeps.reopen_of_fit (h : s.Keeps log) (hfit : s.tables.Fit) : s.reopen = .ok s := by
  obtain ⟨hsize, hrows⟩ := hfit
  have hroom : log.length < 2 ^ 64 - 1024 := by
    have hlen : s.tables.facts.size = min log.length (2 ^ 64 - 1024) := by
      rw [h.facts, ← size_factsById h.numbered]
      exact List.length_map ..
    omega
  refine h.reopen hroom fun f hf => hrows (f.id, encode f) ?_
  rw [h.facts, entries_rowsById h.numbered hroom]
  exact List.mem_map.mpr ⟨f, hf, rfl⟩

theorem Sturdy.reopen (h : s.Sturdy) (hfit : s.tables.Fit) : s.reopen = .ok s := by
  rcases h with ⟨log, hkeeps⟩ | ⟨-, hreopen⟩
  · exact hkeeps.reopen_of_fit hfit
  · exact hreopen

theorem tables_of_ofTables {t : Tables} (h : ofTables t = .ok s) : s.tables = t := by
  obtain ⟨facts, -, hs⟩ := Outcome.bind_ok_iff.mp h
  cases hs
  rfl

/-- The state is all that changes in the tables when it is set. -/
theorem reopen_setState (h : s.reopen = .ok s) (state : StoreState) :
    (s.setState state).reopen = .ok (s.setState state) := by
  obtain ⟨facts, hfacts, hs⟩ := Outcome.bind_ok_iff.mp h
  have hrows : (s.setState state).tables.factList = .ok facts := hfacts
  have hne : Tables.nextName ≠ Tables.stateName := by decide
  have hs := Except.ok.inj hs
  have hindex : FactIndex.empty.addAll facts = s.index := congrArg DiskStore.index hs
  have hnext : ((s.tables.numbers.get? Tables.nextName).map FactId.mk).getD .first = s.next :=
    congrArg DiskStore.next hs
  unfold DiskStore.reopen ofTables
  rw [hrows]
  show Except.ok _ = _
  rw [hindex, setState, SortedMap.get?_insert_of_ne hne, SortedMap.get?_insert_self, hnext]
  simp [StoreState.ofCode_code]

theorem Sturdy.setState (h : s.Sturdy) {state : StoreState} (hstate : state ≠ .building) :
    (s.setState state).Sturdy := by
  rcases h with ⟨log, hkeeps⟩ | ⟨-, hreopen⟩
  · exact .inl ⟨log, hkeeps.setState state⟩
  · exact .inr ⟨hstate, reopen_setState hreopen state⟩

/-- A commit to a store leaves its state and its schema as they are. -/
theorem commit_frame {s' : DiskStore} {b : FactBatch} (h : s.commit b = .ok s') :
    s'.state = s.state ∧ s'.tables.schemas = s.tables.schemas := by
  cases hcheck : b.checkCommit s.next s.state with
  | error e =>
      rw [commit_refused hcheck] at h
      cases h
  | ok u =>
      by_cases hempty : b.staged = []
      · rw [commit_nil hcheck hempty] at h
        cases h
        exact ⟨rfl, rfl⟩
      · rw [commit_eq hcheck hempty] at h
        cases h
        exact ⟨rfl, schemas_append s b⟩

/-- The batch of a file continues the store that it was staged for. -/
theorem Keeps.commitFile (h : s.Keeps log) {f : FactFile} {schema : Schema} {b : FactBatch}
    (hstage : f.stage schema (Store.disk s) = .ok b) {s' : DiskStore} (hcommit : s.commit b = .ok s') :
    ∃ log', s'.Keeps log' := by
  have hbegins : b.Begins log.length := by
    refine FactFile.stage_preserves (P := (·.Begins log.length))
      (fun _ _ _ _ _ _ hb => FactBatch.Begins.stage hb) ?_ hstage
    have hnext : FactStore.nextId (Store.disk s) = .nth log.length := h.next
    rw [FactStore.newBatch, hnext]
    exact .startingAt _
  cases hcheck : b.checkCommit s.next s.state with
  | error e =>
      rw [commit_refused hcheck] at hcommit
      cases hcommit
  | ok u =>
      obtain ⟨s'', hs'', hkeeps, -, -⟩ := h.commit hbegins.toFrom hcheck
      rw [hs''] at hcommit
      cases hcommit
      exact ⟨_, hkeeps⟩

end DiskStore

/-! ## Databases -/

namespace Database

variable {db db' : Database} {s : DiskStore}

/-- What the store of a database has as its schema can be read, and is the schema that a
complete database answers with. -/
def Saved (db : Database) : Prop :=
  ∃ bytes schema, FactStore.loadSchema db.store = some bytes ∧ Schema.ofBytes bytes = .ok schema ∧
    (db.state = .complete → schema = db.stored)

/-- A database whose store can be opened again. -/
structure Persists (db : Database) (s : DiskStore) : Prop where
  store : db.store = .disk s
  sturdy : s.Sturdy
  saved : db.Saved

theorem state_of_store (h : db.store = .disk s) : db.state = s.state := by
  rw [Database.state, h]
  rfl

theorem Saved.setState (h : db.Saved) {state : StoreState} (hstate : state ≠ .complete) :
    (db.setState state).Saved := by
  obtain ⟨bytes, schema, hload, hread, -⟩ := h
  refine ⟨bytes, schema, ?_, hread, fun hcomplete => ?_⟩
  · rw [← hload, Database.setState]
    cases db.store <;> rfl
  · have hset : (db.setState state).state = state := by
      rw [Database.setState, Database.state]
      cases db.store <;> rfl
    exact absurd (hset.symm.trans hcomplete) hstate

theorem Persists.giveUp (h : db.Persists s) :
    (db.setState .incomplete).Persists (s.setState .incomplete) where
  store := by
    rw [Database.setState, h.store]
    rfl
  sturdy := h.sturdy.setState (by decide)
  saved := h.saved.setState (by decide)

/-- A database that is not complete may have any schema in memory. -/
theorem Persists.follow (h : db.Persists s) (hbuilding : db.state = .building) (live : Schema) :
    ({ db with stored := live } : Database).Persists s := by
  obtain ⟨bytes, schema, hload, hread, -⟩ := h.saved
  refine ⟨h.store, h.sturdy, bytes, schema, hload, hread, fun hcomplete => ?_⟩
  have hsame : db.state = .complete := hcomplete
  rw [hbuilding] at hsame
  cases hsame

theorem Persists.keeps (h : db.Persists s) (hbuilding : db.state = .building) :
    ∃ log, s.Keeps log := by
  rcases h.sturdy with hkeeps | ⟨hne, -⟩
  · exact hkeeps
  · exact absurd ((state_of_store h.store).symm.trans hbuilding) hne

theorem Persists.commitFile (h : db.Persists s) (hbuilding : db.state = .building) {f : FactFile}
    {schema : Schema} {b : FactBatch} (hb : f.stage schema db.store = .ok b) {t : Store}
    (ht : FactStore.commit db.store b = .ok t) :
    ∃ s', ({ db with store := t, stored := schema } : Database).Persists s' := by
  have hstate : s.state = .building := (state_of_store h.store).symm.trans hbuilding
  obtain ⟨log, hkeeps⟩ := h.keeps hbuilding
  rw [h.store] at hb ht
  obtain ⟨s', hs', rfl⟩ := Outcome.map_ok_iff.mp ht
  obtain ⟨hstate', hschemas⟩ := DiskStore.commit_frame hs'
  obtain ⟨bytes, saved, hload, hread, -⟩ := h.saved
  refine ⟨s', rfl, .inl (hkeeps.commitFile hb hs'), bytes, saved, ?_, hread, fun hcomplete => ?_⟩
  · rw [← hload, h.store]
    show s'.tables.schemas.get? Tables.schemaName = s.tables.schemas.get? Tables.schemaName
    rw [hschemas]
  · have hcomplete : s'.state = .complete := hcomplete
    rw [hstate', hstate] at hcomplete
    cases hcomplete

theorem Persists.ingest (h : db.Persists s) (live : Schema) (f : FactFile) :
    ∃ s', (db.ingest live f).1.Persists s' := by
  rcases db.ingest_cases live f with
    ⟨-, e, heq⟩ | ⟨hbuilding, ⟨stored, e, heq⟩ | ⟨b, t, hb, ht, heq⟩⟩
  · rw [heq]
    exact ⟨s, h⟩
  · rw [heq]
    exact ⟨_, (h.follow hbuilding stored).giveUp⟩
  · rw [heq]
    exact h.commitFile hbuilding hb ht

theorem ingest_repo (db : Database) (live : Schema) (f : FactFile) :
    (db.ingest live f).1.repo = db.repo := by
  rcases db.ingest_cases live f with ⟨-, e, heq⟩ | ⟨-, ⟨stored, e, heq⟩ | ⟨b, t, -, -, heq⟩⟩
  · rw [heq]
  · rw [heq]
    rfl
  · rw [heq]

/-- A database that is sealed has its schema written. -/
theorem Persists.finalize (h : db.Persists s) {live : Schema} (hstorable : live.Storable)
    (hdone : db.finalize live = .ok db') : ∃ s', db'.Persists s' := by
  obtain ⟨hbuilding, rfl⟩ := finalize_eq hdone
  obtain ⟨log, hkeeps⟩ := h.keeps hbuilding
  refine ⟨(s.saveSchema live.toBytes).setState .complete, ?_,
    .inl ⟨log, (hkeeps.saveSchema _).setState _⟩, live.toBytes, live, ?_,
    Schema.ofBytes_toBytes hstorable, fun _ => rfl⟩
  · dsimp only
    rw [h.store]
    rfl
  · dsimp only
    rw [h.store]
    exact SortedMap.get?_insert_self ..

/-- The database that the tables of a file hold. -/
def ofTables (repo : Repo) (t : Tables) : Except Error Database := do
  Database.reopen repo (.disk (← DiskStore.ofTables t))

theorem reopen_eq {repo : Repo} {store : Store} {bytes : Bytes} {schema : Schema}
    (hload : FactStore.loadSchema store = some bytes) (hread : Schema.ofBytes bytes = .ok schema) :
    Database.reopen repo store = .ok (if FactStore.state store = .building then
      (⟨repo, store, schema⟩ : Database).setState .incomplete else ⟨repo, store, schema⟩) := by
  unfold Database.reopen
  rw [hload]
  dsimp only
  rw [hread]
  rfl

theorem reopen_ok {repo : Repo} {store : Store} (h : Database.reopen repo store = .ok db) :
    ∃ bytes schema, FactStore.loadSchema store = some bytes ∧ Schema.ofBytes bytes = .ok schema := by
  unfold Database.reopen at h
  split at h
  · cases h
  · rename_i bytes hload
    obtain ⟨schema, hread, -⟩ := Outcome.bind_ok_iff.mp h
    exact ⟨bytes, schema, hload, Outcome.mapError_ok_iff.mp hread⟩

/-- A database that was opened is not building, and can be opened again. -/
theorem ofTables_ok {repo : Repo} {t : Tables} (h : Database.ofTables repo t = .ok db) :
    db.repo = repo ∧ ∃ s, db.Persists s := by
  obtain ⟨s, hs, hreopen⟩ := Outcome.bind_ok_iff.mp h
  have hagain : s.reopen = .ok s := by
    rw [DiskStore.reopen, DiskStore.tables_of_ofTables hs]
    exact hs
  obtain ⟨bytes, schema, hload, hread⟩ := reopen_ok hreopen
  rw [reopen_eq hload hread] at hreopen
  have hsaved : ∀ state, (⟨repo, .disk (s.setState state), schema⟩ : Database).Saved :=
    fun _ => ⟨bytes, schema, hload, hread, fun _ => rfl⟩
  split at hreopen
  · cases hreopen
    exact ⟨rfl, s.setState .incomplete, rfl, .inr ⟨by simp [DiskStore.setState],
      DiskStore.reopen_setState hagain _⟩, hsaved .incomplete⟩
  · rename_i hstate
    cases hreopen
    exact ⟨rfl, s, rfl, .inr ⟨hstate, hagain⟩, bytes, schema, hload, hread, fun _ => rfl⟩

/-- What opening a database again makes of it. A build that was not ended is given up, and the
schema is the one that was written last. -/
structure Restarts (db db' : Database) : Prop where
  repo : db'.repo = db.repo
  store : db'.store =
    if db.state = .building then FactStore.setState db.store .incomplete else db.store
  stored : ∃ bytes, FactStore.loadSchema db.store = some bytes ∧ Schema.ofBytes bytes = .ok db'.stored
  complete : db.state = .complete → db' = db

theorem Persists.restarts (h : db.Persists s) (hfit : s.tables.Fit) :
    ∃ db', Database.ofTables db.repo s.tables = .ok db' ∧ db.Restarts db' := by
  have hopen : DiskStore.ofTables s.tables = .ok s := h.sturdy.reopen hfit
  obtain ⟨bytes, schema, hload, hread, hcomplete⟩ := h.saved
  obtain ⟨repo, store, stored⟩ := db
  obtain rfl : store = .disk s := h.store
  have heval : Database.ofTables repo s.tables = Database.reopen repo (.disk s) := by
    rw [Database.ofTables, hopen]
    rfl
  rw [heval, reopen_eq hload hread]
  refine ⟨_, rfl, ?_⟩
  split
  · rename_i hbuilding
    have hstate : (⟨repo, .disk s, stored⟩ : Database).state = .building := hbuilding
    refine ⟨rfl, (if_pos hstate).symm, ⟨bytes, hload, hread⟩, fun hdone => ?_⟩
    rw [hstate] at hdone
    cases hdone
  · rename_i hbuilding
    have hstate : ¬ (⟨repo, .disk s, stored⟩ : Database).state = .building := hbuilding
    refine ⟨rfl, (if_neg hstate).symm, ⟨bytes, hload, hread⟩, fun hdone => ?_⟩
    rw [hcomplete hdone]

theorem persists_create (repo : Repo) {live : Schema} (hstorable : live.Storable) :
    ∃ s, (Database.create repo (.disk .empty) live).Persists s :=
  ⟨(DiskStore.empty.saveSchema live.toBytes).setState .building, rfl,
    .inl ⟨[], (DiskStore.keeps_empty.saveSchema _).setState _⟩, live.toBytes, live,
    SortedMap.get?_insert_self .., Schema.ofBytes_toBytes hstorable, fun _ => rfl⟩

end Database

/-! ## Catalogs -/

namespace Catalog

open Action

variable {root : CatalogRoot} {c c' : Catalog} {files : FileTree} {repo : Repo} {db : Database}
  {s : DiskStore} {databases : SortedMap Repo Database}

theorem fileOf_inj {r r' : Repo} (h : fileOf root r = fileOf root r') : r = r' := by
  have hnames := List.append_cancel_left h
  cases r
  cases r'
  simpa using hnames

/-- The files under a root are those of databases, which can be opened again. -/
structure OnDisk (root : CatalogRoot) (files : FileTree) (databases : SortedMap Repo Database) :
    Prop where
  found : files.find root.path = .ok (root.place, .directory)
  filed : ∀ repo db, databases.get? repo = some db → ∃ s, db.Persists s ∧
    files.node? (fileOf root repo) = some (.database s.tables)
  owned : ∀ repo n, files.node? (fileOf root repo) = some n → n ≠ .directory →
    ∃ db, databases.get? repo = some db

theorem OnDisk.grow (h : OnDisk root files databases) {more : FileTree} (hgrown : files.Grown more) :
    OnDisk root more databases where
  found := FileTree.find_directory hgrown.directories h.found
  filed repo db hdb := by
    obtain ⟨s, hs, hnode⟩ := h.filed repo db hdb
    exact ⟨s, hs, (hgrown.node_iff (by simp)).mpr hnode⟩
  owned repo n hnode hn := h.owned repo n ((hgrown.node_iff hn).mp hnode) hn

/-- A database and its file are put in place together. -/
theorem OnDisk.insert (h : OnDisk root files databases) (hdb : db.Persists s)
    (hplace : files.node? (fileOf root repo) ≠ some .directory) :
    OnDisk root (files.put (fileOf root repo) (.database s.tables)) (databases.insert repo db) where
  found := FileTree.find_directory (.put hplace) h.found
  filed repo' db' hdb' := by
    rw [SortedMap.get?_insert] at hdb'
    split at hdb'
    · subst repo'
      cases hdb'
      exact ⟨s, hdb, FileTree.node?_put_self ..⟩
    · rename_i hne
      obtain ⟨s', hs', hnode⟩ := h.filed repo' db' hdb'
      refine ⟨s', hs', ?_⟩
      rw [FileTree.node?_put_of_ne fun he => hne (fileOf_inj he)]
      exact hnode
  owned repo' n hnode hn := by
    rw [SortedMap.get?_insert]
    split
    · exact ⟨db, rfl⟩
    · rename_i hne
      rw [FileTree.node?_put_of_ne fun he => hne (fileOf_inj he)] at hnode
      exact h.owned repo' n hnode hn

theorem put_files (hroot : c.root = some root) (hstore : db.store = .disk s) {t : Tables}
    (hnode : c.files.node? (fileOf root db.repo) = some (.database t)) :
    (c.put db).files = c.files.put (fileOf root db.repo) (.database s.tables) := by
  unfold Catalog.put writeThrough
  rw [hroot, hstore]
  dsimp only
  rw [hnode]

/-- Databases are kept under their identities, and those on disk in their files. -/
structure Sound (c : Catalog) : Prop where
  named : ∀ repo db, c.databases.get? repo = some db → db.repo = repo
  onDisk : ∀ root, c.root = some root → OnDisk root c.files c.databases

theorem Sound.named_insert (h : c.Sound) (next : Database) {repo' : Repo} {db' : Database}
    (hget : (c.databases.insert next.repo next).get? repo' = some db') : db'.repo = repo' := by
  rw [SortedMap.get?_insert] at hget
  split at hget
  · cases hget
    exact Eq.symm ‹_›
  · exact h.named repo' db' hget

theorem Sound.put (h : c.Sound) (hdb : c.databases.get? repo = some db) {next : Database}
    (hrepo : next.repo = db.repo)
    (hnext : c.root.isSome → ∀ s, db.Persists s → ∃ s', next.Persists s') : (c.put next).Sound where
  named repo' db' hget := h.named_insert next hget
  onDisk root hroot := by
    have hroot : c.root = some root := hroot
    have hondisk := h.onDisk root hroot
    obtain ⟨s, hs, hnode⟩ := hondisk.filed repo db hdb
    obtain ⟨s', hs'⟩ := hnext (by rw [hroot]; rfl) s hs
    obtain rfl : next.repo = repo := hrepo.trans (h.named repo db hdb)
    rw [put_files hroot hs'.store hnode]
    refine hondisk.insert hs' ?_
    rw [hnode]
    simp

/-! ### New databases -/

theorem openFile_new {place : Place} (h : ∀ n, files.node? place = some n → n = .directory) :
    openFile files place = .error (.storage (.database .isADirectory)) ∨
      files.node? place = none ∧
        openFile files place = .ok (files.put place (.database .empty), .empty) := by
  unfold openFile
  cases hnode : files.node? place with
  | none => exact .inr ⟨rfl, rfl⟩
  | some n =>
      obtain rfl := h n hnode
      exact .inl rfl

theorem openStore_eval {t : Tables} (hopen : openFile c.files (fileOf root repo) = .ok (files, t)) :
    (openStore root repo).eval c = ((DiskStore.ofTables t).map .disk, { c with files }) := by
  unfold openStore
  simp only [eval_bind, eval_get, eval_lift, hopen]
  cases DiskStore.ofTables t <;> rfl

theorem openStore_refused {e : Error} (hopen : openFile c.files (fileOf root repo) = .error e) :
    (openStore root repo).eval c = (.error e, c) := by
  unfold openStore
  simp only [eval_bind, eval_get, eval_lift, hopen]

/-- A new database in memory gets an empty store. -/
theorem newStore_memory (hroot : c.root = none) : (newStore repo).eval c = (.ok (.memory .empty), c) := by
  unfold newStore
  rw [eval_bind, eval_get]
  dsimp only
  rw [hroot]
  rfl

/-- A new database on disk gets a new file, or at most some directories are made. -/
theorem newStore_disk (hroot : c.root = some root) (h : OnDisk root c.files c.databases)
    (hnew : c.databases.get? repo = none) :
    ∃ more, c.files.Grown more ∧
      ((∃ e, (newStore repo).eval c = (.error (.storage e), { c with files := more })) ∨
        more.node? (fileOf root repo) = none ∧ (newStore repo).eval c = (.ok (.disk .empty),
          { c with files := more.put (fileOf root repo) (.database .empty) })) := by
  have hgrown := c.files.grown_makeDirectories ((root.path.join repo.name).join repo.hash)
  obtain ⟨start, place, live, databases⟩ := c
  subst hroot
  dsimp only at h hnew hgrown ⊢
  unfold newStore
  rw [eval_bind, eval_get]
  dsimp only
  cases hmade : start.makeDirectories ((root.path.join repo.name).join repo.hash) with
  | mk more made =>
      rw [hmade] at hgrown
      refine ⟨more, hgrown, ?_⟩
      have hplace : ∀ n, more.node? (fileOf root repo) = some n → n = .directory := by
        intro n hn
        by_contra hne
        obtain ⟨db, hdb⟩ := (h.grow hgrown).owned repo n hn hne
        rw [hnew] at hdb
        cases hdb
      cases made with
      | error e => exact .inl ⟨_, rfl⟩
      | ok u =>
          have hstore : eval (do
              set (⟨more, some root, live, databases⟩ : Catalog)
              atPath ((root.path.join repo.name).join repo.hash) (.ok u : Except FileFault Unit)
              openStore root repo : Action Store) ⟨start, some root, live, databases⟩ =
              (openStore root repo).eval ⟨more, some root, live, databases⟩ := rfl
          rcases openFile_new hplace with hopen | ⟨hnone, hopen⟩
          · exact .inl ⟨_, hstore.trans (openStore_refused hopen)⟩
          · have hempty : DiskStore.ofTables .empty = .ok .empty := rfl
            refine .inr ⟨hnone, hstore.trans ?_⟩
            rw [openStore_eval hopen, hempty]
            rfl

/-! ### Runs without reopening -/

/-- On disk the live schema is small enough to be read again. -/
def Writable (c : Catalog) : Prop := c.root.isSome → c.live.Storable

instance (c : Catalog) : Decidable c.Writable := inferInstanceAs (Decidable (_ → _))

theorem Writable.congr (h : c.Writable) (hroot : c'.root = c.root) (hlive : c'.live = c.live) :
    c'.Writable := by
  unfold Writable
  rw [hroot, hlive]
  exact h

theorem Sound.create (h : c.Sound) (hwritable : c.Writable) (hnew : c.databases.get? repo = none)
    {store : Store} (hstore : (newStore repo).eval c = (.ok store, c')) :
    (c'.put (Database.create repo store c.live)).Sound := by
  cases hroot : c.root with
  | none =>
      rw [newStore_memory hroot] at hstore
      cases hstore
      exact ⟨fun repo' db' hget => h.named_insert _ hget, fun root hr => by cases hroot.symm.trans hr⟩
  | some root =>
      have hondisk := h.onDisk root hroot
      obtain ⟨more, hgrown, ⟨e, hrefused⟩ | ⟨hnone, hmade⟩⟩ := newStore_disk hroot hondisk hnew
      · rw [hrefused] at hstore
        cases hstore
      · rw [hmade] at hstore
        cases hstore
        refine ⟨fun repo' db' hget => h.named_insert _ hget, fun root' hr => ?_⟩
        obtain rfl : root = root' := Option.some.inj (hroot.symm.trans hr)
        obtain ⟨s, hs⟩ := Database.persists_create repo (hwritable (by rw [hroot]; rfl))
        have hfiles := put_files (c := ⟨more.put (fileOf root repo) (.database .empty), c.root, c.live,
          c.databases⟩) hroot hs.store (FileTree.node?_put_self more (fileOf root repo) (.database .empty))
        rw [hfiles, Database.create, FileTree.put_put]
        refine (hondisk.grow hgrown).insert hs ?_
        have hplace : more.node? (fileOf root repo) ≠ some .directory := by
          rw [hnone]
          simp
        exact hplace

theorem newStore_frame (h : c.Sound) (hnew : c.databases.get? repo = none) {r : Except Error Store}
    (hstore : (newStore repo).eval c = (r, c')) :
    c'.root = c.root ∧ c'.live = c.live ∧ c'.databases = c.databases := by
  cases hroot : c.root with
  | none =>
      rw [newStore_memory hroot] at hstore
      cases hstore
      exact ⟨hroot, rfl, rfl⟩
  | some root =>
      obtain ⟨more, -, ⟨e, heval⟩ | ⟨-, heval⟩⟩ := newStore_disk hroot (h.onDisk root hroot) hnew
      · rw [heval] at hstore
        cases hstore
        exact ⟨hroot, rfl, rfl⟩
      · rw [heval] at hstore
        cases hstore
        exact ⟨hroot, rfl, rfl⟩

theorem Move.sound (hmove : Move c c') (h : c.Sound) (hwritable : c.Writable) :
    c'.Sound ∧ c'.root = c.root ∧ c'.live = c.live := by
  cases hmove with
  | fill f hdb =>
      exact ⟨h.put hdb (Database.ingest_repo ..) fun _ s hs => hs.ingest c.live f, rfl, rfl⟩
  | giveUp hdb hbuilding => exact ⟨h.put hdb rfl fun _ s hs => ⟨_, hs.giveUp⟩, rfl, rfl⟩
  | refuse hnew heval =>
      obtain ⟨hroot, hlive, hdatabases⟩ := newStore_frame h hnew heval
      refine ⟨⟨fun repo db hdb => h.named repo db (hdatabases ▸ hdb), fun root hr => ?_⟩, hroot, hlive⟩
      have hroot' : c.root = some root := hroot.symm.trans hr
      obtain ⟨more, hgrown, ⟨e, hrefused⟩ | ⟨-, hmade⟩⟩ :=
        newStore_disk hroot' (h.onDisk root hroot') hnew
      · rw [heval] at hrefused
        cases hrefused
        exact (h.onDisk root hroot').grow hgrown
      · rw [heval] at hmade
        cases hmade
  | create hnew heval =>
      obtain ⟨hroot, hlive, -⟩ := newStore_frame h hnew heval
      exact ⟨h.create hwritable hnew heval, hroot, hlive⟩

theorem Moves.sound (hmoves : Moves c c') (h : c.Sound) (hwritable : c.Writable) :
    c'.Sound ∧ c'.root = c.root ∧ c'.live = c.live := by
  induction hmoves with
  | refl => exact ⟨h, rfl, rfl⟩
  | tail _ hmove ih =>
      obtain ⟨hsound, hroot, hlive⟩ := ih
      obtain ⟨hsound', hroot', hlive'⟩ := hmove.sound hsound (hwritable.congr hroot hlive)
      exact ⟨hsound', hroot'.trans hroot, hlive'.trans hlive⟩

theorem Seals.sound (hseals : c.Seals repo c') (h : c.Sound) (hwritable : c.Writable) :
    c'.Sound ∧ c'.root = c.root ∧ c'.live = c.live := by
  obtain ⟨db, done, hdb, hdone, rfl⟩ := hseals
  have hrepo : done.repo = db.repo := by rw [(Database.finalize_eq hdone).2]
  refine ⟨h.put hdb hrepo fun hsome s hs => ?_, rfl, rfl⟩
  exact hs.finalize (hwritable hsome) hdone

/-! ### Opening a directory -/

theorem discovered {place q : Place} {n : FileNode}
    (h : (if !place.isPrefixOf q || n = .directory then none
      else match q.drop place.length with
        | [name, hash, file] => if file = fileName then some (⟨name, hash⟩ : Repo) else none
        | _ => none) = some repo) :
    q = place ++ [repo.name, repo.hash, fileName] ∧ n ≠ .directory := by
  split at h
  · cases h
  · rename_i hcond
    simp only [Bool.or_eq_true, Bool.not_eq_true', decide_eq_true_eq, not_or,
      Bool.not_eq_false] at hcond
    obtain ⟨hbegins, hn⟩ := hcond
    refine ⟨?_, hn⟩
    split at h
    · rename_i name hash file hdrop
      split at h
      · rename_i hfile
        cases h
        obtain ⟨rest, rfl⟩ := List.isPrefixOf_iff_prefix.mp hbegins
        rw [List.drop_left] at hdrop
        rw [hdrop, hfile]
      · cases h
    · cases h

/-- The databases under a directory are those whose files are there. -/
theorem mem_discover {place : Place} :
    repo ∈ discover files place ↔
      ∃ n, files.node? (place ++ [repo.name, repo.hash, fileName]) = some n ∧ n ≠ .directory := by
  unfold discover
  rw [List.mem_filterMap]
  constructor
  · rintro ⟨⟨q, n⟩, hmem, hq⟩
    obtain ⟨rfl, hn⟩ := discovered hq
    exact ⟨n, SortedMap.get?_eq_some_iff.mpr hmem, hn⟩
  · rintro ⟨n, hnode, hn⟩
    refine ⟨(_, n), SortedMap.get?_eq_some_iff.mp hnode, ?_⟩
    have hbegins : place.isPrefixOf (place ++ [repo.name, repo.hash, fileName]) = true :=
      List.isPrefixOf_iff_prefix.mpr (List.prefix_append ..)
    simp only [hbegins, Bool.not_true, Bool.false_or, decide_eq_true_eq, hn, if_false,
      List.drop_left, if_true]

theorem discover_nodup (files : FileTree) (place : Place) : (discover files place).Nodup := by
  unfold discover
  refine List.Pairwise.filterMap _ ?_ files.nodes.ascending
  rintro ⟨q, n⟩ ⟨q', n'⟩ hlt repo hrepo repo' hrepo' rfl
  obtain ⟨rfl, -⟩ := discovered hrepo
  obtain ⟨rfl, -⟩ := discovered hrepo'
  simp at hlt

/-- What attaching the file of a database gives. -/
theorem attach_eval {t : Tables} (hnode : c.files.node? (fileOf root repo) = some (.database t)) :
    (attach root repo).eval c = match Database.ofTables repo t with
      | .error e => (.error e, c)
      | .ok db => (.ok db, { c with files := writeThrough c.files (some root) db }) := by
  have hopen : openFile c.files (fileOf root repo) = .ok (c.files, t) := by
    rw [openFile, hnode]
  unfold attach Database.ofTables
  rw [eval_bind, openStore_eval hopen]
  cases DiskStore.ofTables t with
  | error e => rfl
  | ok s =>
      dsimp only [Except.map, bind, Except.bind]
      cases Database.reopen repo (.disk s) <;> rfl

/-- A file that can be attached holds the tables of a database. -/
theorem attach_ok (h : (attach root repo).eval c = (.ok db, c')) :
    ∃ t, c.files.node? (fileOf root repo) = some (.database t) ∧ Database.ofTables repo t = .ok db := by
  have hempty : ∀ files, openFile c.files (fileOf root repo) = .ok (files, .empty) → False := by
    intro files hopen
    unfold attach at h
    rw [eval_bind, openStore_eval hopen] at h
    cases h
  cases hnode : c.files.node? (fileOf root repo) with
  | none => exact (hempty _ (by rw [openFile, hnode])).elim
  | some n =>
      cases n with
      | database t =>
          refine ⟨t, rfl, ?_⟩
          rw [attach_eval hnode] at h
          cases hdb : Database.ofTables repo t with
          | error e =>
              rw [hdb] at h
              cases h
          | ok db' =>
              rw [hdb] at h
              cases h
              rfl
      | directory =>
          have hopen : openFile c.files (fileOf root repo) =
              .error (.storage (.database .isADirectory)) := by rw [openFile, hnode]
          unfold attach at h
          rw [eval_bind, openStore_refused hopen] at h
          cases h
      | file bytes =>
          cases bytes with
          | nil => exact (hempty _ (by rw [openFile, hnode])).elim
          | cons b bytes =>
              have hopen : openFile c.files (fileOf root repo) =
                  .error (.storage (.database .notADatabase)) := by rw [openFile, hnode]
              unfold attach at h
              rw [eval_bind, openStore_refused hopen] at h
              cases h

/-- The file of each identity holds the tables of the database. -/
def InFiles (root : CatalogRoot) (files : FileTree) : List Repo → List Database → Prop :=
  List.Forall₂ fun repo db => ∃ t, files.node? (fileOf root repo) = some (.database t) ∧
    Database.ofTables repo t = .ok db

theorem InFiles.congr {more : FileTree} {repos : List Repo} {dbs : List Database}
    (h : InFiles root files repos dbs)
    (hsame : ∀ repo ∈ repos, more.node? (fileOf root repo) = files.node? (fileOf root repo)) :
    InFiles root more repos dbs := by
  induction h with
  | nil => exact .nil
  | cons hhead _ ih =>
      obtain ⟨hrepo, hrepos⟩ := List.forall_mem_cons.mp hsame
      obtain ⟨t, hnode, ht⟩ := hhead
      exact .cons ⟨t, hrepo.trans hnode, ht⟩ (ih hrepos)

theorem InFiles.of_mem_left {repos : List Repo} {dbs : List Database}
    (h : InFiles root files repos dbs) (hrepo : repo ∈ repos) : ∃ db ∈ dbs, ∃ t,
      files.node? (fileOf root repo) = some (.database t) ∧ Database.ofTables repo t = .ok db := by
  induction h with
  | nil => cases hrepo
  | cons hhead _ ih =>
      rcases List.mem_cons.mp hrepo with rfl | hrepo
      · exact ⟨_, List.mem_cons_self .., hhead⟩
      · obtain ⟨db, hdb, hlink⟩ := ih hrepo
        exact ⟨db, List.mem_cons_of_mem _ hdb, hlink⟩

theorem InFiles.of_mem_right {repos : List Repo} {dbs : List Database}
    (h : InFiles root files repos dbs) (hdb : db ∈ dbs) : ∃ t,
      files.node? (fileOf root db.repo) = some (.database t) ∧
        Database.ofTables db.repo t = .ok db := by
  induction h with
  | nil => cases hdb
  | cons hhead _ ih =>
      rcases List.mem_cons.mp hdb with rfl | hdb
      · obtain ⟨t, hnode, ht⟩ := hhead
        obtain ⟨rfl, -⟩ := Database.ofTables_ok ht
        exact ⟨t, hnode, ht⟩
      · exact ih hdb

theorem writeThrough_eq (hstore : db.store = .disk s) {t : Tables}
    (hnode : files.node? (fileOf root db.repo) = some (.database t)) :
    writeThrough files (some root) db = files.put (fileOf root db.repo) (.database s.tables) := by
  unfold writeThrough
  rw [hstore]
  dsimp only
  rw [hnode]

/-- A file that is attached has the tables of the database then. -/
theorem attach_file {t : Tables} (hnode : c.files.node? (fileOf root db.repo) = some (.database t))
    (ht : Database.ofTables db.repo t = .ok db) (hs : db.Persists s) :
    (attach root db.repo).eval c =
      (.ok db, { c with files := c.files.put (fileOf root db.repo) (.database s.tables) }) := by
  rw [attach_eval hnode, ht]
  dsimp only
  rw [writeThrough_eq hs.store hnode]

/-- Attaching files changes these files only, to the tables of the databases that come of
them. -/
theorem attachAll_eval {repos : List Repo} {dbs : List Database} (hnodup : repos.Nodup)
    (h : InFiles root c.files repos dbs) :
    ∃ more, (repos.mapM (attach root)).eval c = (.ok dbs, { c with files := more }) ∧
      c.files.Directories more ∧
      (∀ q, (∀ repo ∈ repos, q ≠ fileOf root repo) → more.node? q = c.files.node? q) ∧
      ∀ db ∈ dbs, ∃ s, db.Persists s ∧
        more.node? (fileOf root db.repo) = some (.database s.tables) := by
  induction repos generalizing c dbs with
  | nil =>
      cases h
      exact ⟨c.files, rfl, ⟨rfl, fun _ h => h⟩, fun _ _ => rfl, fun _ h => by cases h⟩
  | cons repo repos ih =>
      obtain ⟨hnot, hrepos⟩ := List.nodup_cons.mp hnodup
      obtain _ | ⟨⟨t, hnode, ht⟩, htail⟩ := h
      rename_i db dbs
      obtain ⟨rfl, s, hs⟩ := Database.ofTables_ok ht
      have hplace : c.files.node? (fileOf root db.repo) ≠ some .directory := by
        rw [hnode]
        simp
      have hother : ∀ r ∈ repos, fileOf root r ≠ fileOf root db.repo :=
        fun r hr he => hnot (fileOf_inj he ▸ hr)
      have hrest : InFiles root (c.files.put (fileOf root db.repo) (.database s.tables)) repos dbs :=
        InFiles.congr htail fun r hr => FileTree.node?_put_of_ne (hother r hr) ..
      obtain ⟨more, heval, hdirs, hsame, hwritten⟩ :=
        ih (c := { c with files := c.files.put (fileOf root db.repo) (.database s.tables) }) hrepos hrest
      refine ⟨more, ?_, (FileTree.Directories.put hplace).trans hdirs, ?_, ?_⟩
      · rw [List.mapM_cons, eval_bind, attach_file hnode ht hs]
        dsimp only
        rw [eval_bind, heval]
        rfl
      · intro q hq
        obtain ⟨hrepo, hq⟩ := List.forall_mem_cons.mp hq
        rw [hsame q hq, FileTree.node?_put_of_ne hrepo]
      · refine List.forall_mem_cons.mpr ⟨⟨s, hs, ?_⟩, hwritten⟩
        rw [hsame _ fun r hr => (hother r hr).symm, FileTree.node?_put_self]

/-- Where all files can be attached they hold the tables of databases. -/
theorem attachAll_ok {repos : List Repo} {dbs : List Database} (hnodup : repos.Nodup)
    (h : (repos.mapM (attach root)).eval c = (.ok dbs, c')) : InFiles root c.files repos dbs := by
  induction repos generalizing c dbs c' with
  | nil =>
      cases h
      exact .nil
  | cons repo repos ih =>
      obtain ⟨hnot, hrepos⟩ := List.nodup_cons.mp hnodup
      rw [List.mapM_cons, eval_bind] at h
      cases hattach : (attach root repo).eval c with
      | mk r c₁ =>
          rw [hattach] at h
          cases r with
          | error e => cases h
          | ok db =>
              obtain ⟨t, hnode, ht⟩ := attach_ok hattach
              obtain ⟨rfl, s, hs⟩ := Database.ofTables_ok ht
              rw [attach_file hnode ht hs] at hattach
              cases hattach
              dsimp only at h
              rw [eval_bind] at h
              cases hall : (repos.mapM (attach root)).eval
                  { c with files := c.files.put (fileOf root db.repo) (.database s.tables) } with
              | mk r c₂ =>
                  rw [hall] at h
                  cases r with
                  | error e => cases h
                  | ok dbs' =>
                      cases h
                      refine .cons ⟨t, hnode, ht⟩ ((ih hrepos hall).congr fun r hr => ?_)
                      have hne : fileOf root r ≠ fileOf root db.repo :=
                        fun he => hnot (fileOf_inj he ▸ hr)
                      exact (FileTree.node?_put_of_ne hne ..).symm

/-- The databases of a list under their identities. -/
theorem get?_ofList {dbs : List Database} :
    (SortedMap.ofList (dbs.map fun db => (db.repo, db))).get? repo = some db →
      db ∈ dbs ∧ db.repo = repo := by
  refine SortedMap.forall_insertMany (P := fun repo db => db ∈ dbs ∧ db.repo = repo)
    (fun _ _ h => by cases h) fun e he => ?_
  obtain ⟨db, hdb, rfl⟩ := List.mem_map.mp he
  exact ⟨hdb, rfl⟩

theorem exists_get?_ofList {dbs : List Database} (h : db ∈ dbs) :
    ∃ db', (SortedMap.ofList (dbs.map fun db => (db.repo, db))).get? db.repo = some db' := by
  rw [SortedMap.ofList, SortedMap.get?_insertMany]
  obtain ⟨e, he⟩ : ∃ e, (dbs.map fun db => (db.repo, db)).reverse.find? (·.1 = db.repo) = some e := by
    rw [← Option.isSome_iff_exists, List.find?_isSome]
    exact ⟨(db.repo, db), List.mem_reverse.mpr (List.mem_map.mpr ⟨db, h, rfl⟩), by simp⟩
  rw [he]
  exact ⟨e.2, rfl⟩

/-- The catalog of databases under a directory, whose files hold their tables. -/
theorem onDisk_of_attached {root : CatalogRoot} {dbs : List Database} {more : FileTree}
    (hfound : files.find root.path = .ok (root.place, .directory))
    (hin : InFiles root files (discover files root.place) dbs) (hdirs : files.Directories more)
    (hsame : ∀ q, (∀ repo ∈ discover files root.place, q ≠ fileOf root repo) →
      more.node? q = files.node? q)
    (hwritten : ∀ db ∈ dbs, ∃ s, db.Persists s ∧
      more.node? (fileOf root db.repo) = some (.database s.tables)) :
    OnDisk root more (.ofList (dbs.map fun db => (db.repo, db))) where
  found := FileTree.find_directory hdirs hfound
  filed repo db hdb := by
    obtain ⟨hmem, rfl⟩ := get?_ofList hdb
    exact hwritten db hmem
  owned repo n hnode hn := by
    have hmem : repo ∈ discover files root.place := by
      by_contra hnot
      have hother := hsame (fileOf root repo) fun r hr he => hnot (fileOf_inj he ▸ hr)
      exact hnot (mem_discover.mpr ⟨n, hother.symm.trans hnode, hn⟩)
    obtain ⟨db, hdb, t, -, ht⟩ := hin.of_mem_left hmem
    obtain ⟨rfl, -⟩ := Database.ofTables_ok ht
    exact exists_get?_ofList hdb

/-- Opening a directory, once it is there, is attaching the files of all databases. -/
theorem openDirectory_eval {path : Path} {place : Place} {n : FileNode}
    (hmade : c.files.makeDirectories path = (files, .ok ())) (hfind : files.find path = .ok (place, n)) :
    (openDirectory path).eval c =
      match ((discover files place).mapM (attach ⟨path, place⟩)).eval ⟨files, none, c.live, ∅⟩ with
      | (.ok dbs, c') => (.ok (), { c' with
          root := some ⟨path, place⟩, databases := .ofList (dbs.map fun db => (db.repo, db)) })
      | (.error e, c') => (.error e, c') := by
  unfold openDirectory
  rw [eval_bind, eval_get]
  dsimp only
  rw [hmade]
  have hmodify : ∀ (f : Catalog → Catalog) (x : Action Unit) (c : Catalog),
      (do modify f; x : Action Unit).eval c = x.eval (f c) := fun _ _ _ => rfl
  rw [hmodify]
  have hfound : atPath path (files.find path) = .ok (place, n) := by
    rw [hfind]
    rfl
  have hthere : atPath path (.ok () : Except FileFault Unit) = .ok () := rfl
  rw [hthere, eval_bind, eval_lift]
  dsimp only
  rw [hfound, eval_bind, eval_lift]
  dsimp only
  rw [eval_bind]
  cases ((discover files place).mapM (attach ⟨path, place⟩)).eval ⟨files, none, c.live, ∅⟩ with
  | mk r c' => cases r <;> rfl

/-- A directory that can be opened gives a catalog whose databases are in their files. -/
theorem sound_openDirectory {path : Path} (h : (openDirectory path).eval c = (.ok (), c')) :
    c'.Sound ∧ (∃ place, c'.root = some ⟨path, place⟩) ∧ c'.live = c.live := by
  cases hmade : c.files.makeDirectories path with
  | mk files made =>
      cases made with
      | error e =>
          unfold openDirectory at h
          rw [eval_bind, eval_get] at h
          dsimp only at h
          rw [hmade] at h
          cases h
      | ok u =>
          cases hfind : files.find path with
          | error e =>
              unfold openDirectory at h
              rw [eval_bind, eval_get] at h
              dsimp only at h
              rw [hmade] at h
              dsimp only at h
              rw [hfind] at h
              cases h
          | ok found =>
              obtain ⟨place, n⟩ := found
              obtain rfl := FileTree.directory_of_makeDirectories hmade hfind
              rw [openDirectory_eval hmade hfind] at h
              cases hall : ((discover files place).mapM (attach ⟨path, place⟩)).eval
                  ⟨files, none, c.live, ∅⟩ with
              | mk r c₁ =>
                  rw [hall] at h
                  cases r with
                  | error e => cases h
                  | ok dbs =>
                      have hnodup := discover_nodup files place
                      have hin := attachAll_ok hnodup hall
                      obtain ⟨more, heval, hdirs, hsame, hwritten⟩ := attachAll_eval hnodup hin
                      rw [heval] at hall
                      cases hall
                      cases h
                      refine ⟨⟨fun repo db hdb => (get?_ofList hdb).2, fun root hr => ?_⟩,
                        ⟨place, rfl⟩, rfl⟩
                      cases hr
                      exact onDisk_of_attached hfind hin hdirs hsame hwritten

theorem exists_inFiles {repos : List Repo} (h : ∀ repo ∈ repos, ∃ t db,
    files.node? (fileOf root repo) = some (.database t) ∧ Database.ofTables repo t = .ok db) :
    ∃ dbs, InFiles root files repos dbs := by
  induction repos with
  | nil => exact ⟨[], .nil⟩
  | cons repo repos ih =>
      obtain ⟨⟨t, db, hlink⟩, hrepos⟩ := List.forall_mem_cons.mp h
      obtain ⟨dbs, hdbs⟩ := ih hrepos
      exact ⟨db :: dbs, .cons ⟨t, hlink⟩ hdbs⟩

/-- The tables of all databases on disk are of a size that a machine can hold. -/
def Holdable (c : Catalog) : Prop := ∀ db ∈ c.databases.values, db.store.Fit

instance (c : Catalog) : Decidable c.Holdable := inferInstanceAs (Decidable (∀ _ ∈ _, _))

/-- The databases of a catalog after it was closed and opened again. -/
def Restarts (c c' : Catalog) : Prop :=
  ∀ repo, (c.databases.get? repo = none → c'.databases.get? repo = none) ∧
    ∀ db, c.databases.get? repo = some db →
      ∃ db', c'.databases.get? repo = some db' ∧ db.Restarts db'

/-- A catalog on disk can be closed and opened again, and has the databases that it had. -/
theorem reopen_eval (h : c.Sound) (hroot : c.root = some root) (hholdable : c.Holdable) :
    ∃ c', (openDirectory root.path).eval c = (.ok (), c') ∧ c'.root = some root ∧
      c'.live = c.live ∧ c.Restarts c' := by
  have hondisk := h.onDisk root hroot
  have hdb : ∀ repo db, c.databases.get? repo = some db → ∃ (s : DiskStore) (db' : Database),
      c.files.node? (fileOf root repo) = some (.database s.tables) ∧
        Database.ofTables repo s.tables = .ok db' ∧ db.Restarts db' := by
    intro repo db hdb
    obtain ⟨s, hs, hnode⟩ := hondisk.filed repo db hdb
    have hfit : db.store.Fit := hholdable db (SortedMap.mem_values_iff.mpr ⟨repo, hdb⟩)
    rw [hs.store] at hfit
    obtain ⟨db', ht, hrestarts⟩ := hs.restarts hfit
    rw [h.named repo db hdb] at ht
    exact ⟨s, db', hnode, ht, hrestarts⟩
  obtain ⟨dbs, hin⟩ : ∃ dbs, InFiles root c.files (discover c.files root.place) dbs := by
    refine exists_inFiles fun repo hrepo => ?_
    obtain ⟨n, hnode, hn⟩ := mem_discover.mp hrepo
    obtain ⟨db, hget⟩ := hondisk.owned repo n hnode hn
    obtain ⟨s, db', hnode', ht, -⟩ := hdb repo db hget
    exact ⟨s.tables, db', hnode', ht⟩
  have hmade := FileTree.makeDirectories_of_find hondisk.found
  obtain ⟨more, heval, -, -, -⟩ := attachAll_eval (c := ⟨c.files, none, c.live, ∅⟩)
    (discover_nodup c.files root.place) hin
  have hopen : (openDirectory root.path).eval c = (.ok (),
      ⟨more, some root, c.live, .ofList (dbs.map fun db => (db.repo, db))⟩) := by
    rw [openDirectory_eval hmade hondisk.found, heval]
  refine ⟨_, hopen, rfl, rfl, fun repo => ⟨?_, ?_⟩⟩
  · intro hnone
    refine Option.eq_none_iff_forall_ne_some.mpr fun db' hget => ?_
    obtain ⟨hmem, rfl⟩ := get?_ofList hget
    obtain ⟨t, hnode, -⟩ := hin.of_mem_right hmem
    obtain ⟨db, hsome⟩ := hondisk.owned db'.repo _ hnode (by simp)
    rw [hnone] at hsome
    cases hsome
  · intro db hget
    obtain ⟨s, db', hnode, ht, hrestarts⟩ := hdb repo db hget
    have hmem : repo ∈ discover c.files root.place := mem_discover.mpr ⟨_, hnode, by simp⟩
    -- whatever the list has under the identity comes from the one file of it
    obtain ⟨first, hfirst, t, -, ht'⟩ := hin.of_mem_left hmem
    obtain ⟨rfl, -⟩ := Database.ofTables_ok ht'
    obtain ⟨last, hlast⟩ := exists_get?_ofList hfirst
    obtain ⟨hmem', hrepo⟩ := get?_ofList hlast
    obtain ⟨t', hnode', hagain⟩ := hin.of_mem_right hmem'
    rw [hrepo, hnode] at hnode'
    cases hnode'
    rw [hrepo, ht] at hagain
    cases hagain
    exact ⟨db', hlast, hrestarts⟩

end Catalog

end Factbase
