import Factbase.Proofs.Catalog.Reloading
import Factbase.Proofs.Ingest.Origins
import Factbase.Proofs.Text
import Mathlib.Data.List.Perm.Subperm

/-!
# Loading files

A load reads all its files before it does anything else, so one that is
refused leaves the catalog as it was. Then a database is made, filled and
sealed. It ends in one of a few ways (`Catalog.LoadEnds`), whatever
happened to the catalog before (`Catalog.load_ends`).

Filling a new database can only fail in a file. Its schema is the live one
from the beginning, and files bring facts of predicates that are defined in
it; so the database can always follow the live schema (`Database.Current`),
and sealing it is not refused. All of it is one write of the database that
comes of the files, next to what was there (`Catalog.Adds`).
-/

namespace Factbase

/-! ## Files that fail -/

/-- A file that cannot be read is named by the error. -/
theorem FileTree.readFacts_error {t : FileTree} {p : Path} {e : Error}
    (h : t.readFacts p = .error e) : ∃ reason, e = .ingestion p.text reason := by
  unfold FileTree.readFacts at h
  cases hfind : t.find p with
  | error fault =>
      rw [hfind] at h
      cases h
      exact ⟨_, rfl⟩
  | ok found =>
      obtain ⟨place, node⟩ := found
      simp only [hfind, Except.mapError, bind, Except.bind] at h
      split at h
      · cases h
        exact ⟨_, rfl⟩
      · cases htext : textOf node with
        | error fault =>
            simp only [htext] at h
            cases h
            exact ⟨_, rfl⟩
        | ok text =>
            simp only [htext] at h
            unfold FactFile.ofText at h
            split at h
            · cases h
            · cases h
              exact ⟨_, rfl⟩

/-- A file that cannot be staged is named by the error. -/
theorem FactFile.stage_error {σ : Type} [FactStore σ] {f : FactFile} {schema : Schema} {s : σ}
    {e : Error} (h : f.stage schema s = .error e) :
    ∃ reason, e = .ingestion f.name (.rejected reason) := by
  unfold FactFile.stage FactFile.stageBy at h
  cases hgroups : FactFile.stageGroups schema (Staging.insert s) f.groups
    ⟨FactStore.newBatch s, ∅⟩ with
  | error reason =>
      rw [hgroups] at h
      cases h
      exact ⟨reason, rfl⟩
  | ok staging =>
      rw [hgroups] at h
      cases h

namespace Store

variable {s t u : Store} {b : FactBatch} {schema : Schema}

/-- What was staged for a building store can be committed to it. -/
theorem commit_of_stage {f : FactFile} (hb : f.stage schema s = .ok b)
    (hbuilding : FactStore.state s = .building) : ∃ t, FactStore.commit s b = .ok t := by
  have hbase : b.base = FactStore.nextId s := by
    refine FactFile.stage_preserves (P := fun b => b.base = FactStore.nextId s)
      (fun b b' p k v id hb hstage => ?_) rfl hb
    rcases stage_cases hstage with ⟨rfl, -⟩ | ⟨rfl, -⟩ | ⟨rfl, -⟩ <;> exact hb
  cases s with
  | memory s =>
      have hcheck : b.checkCommit s.next s.state = .ok () :=
        FactBatch.checkCommit_ok_iff.mpr ⟨hbuilding, hbase⟩
      exact ⟨_, Outcome.map_ok_iff.mpr ⟨_, MemoryStore.commit_eq hcheck, rfl⟩⟩
  | disk s =>
      have hcheck : b.checkCommit s.next s.state = .ok () :=
        FactBatch.checkCommit_ok_iff.mpr ⟨hbuilding, hbase⟩
      by_cases hempty : b.staged = []
      · exact ⟨_, Outcome.map_ok_iff.mpr ⟨_, DiskStore.commit_nil hcheck hempty, rfl⟩⟩
      · exact ⟨_, Outcome.map_ok_iff.mpr ⟨_, DiskStore.commit_eq hcheck hempty, rfl⟩⟩

theorem SameKind.trans (h : s.SameKind t) (h' : t.SameKind u) : s.SameKind u := by
  cases s <;> cases t <;> cases u <;> trivial

end Store

/-! ## Databases under the live schema -/

namespace Database

variable {db next done : Database} {live : Schema} {files : List FactFile} {f : FactFile}

/-- A database has the live schema, and facts of predicates that are defined in it. -/
structure Current (live : Schema) (db : Database) : Prop where
  tallied : db.store.index.Tallied
  stored : db.stored = live
  defined : ∀ p, db.store.HasFacts p → live.Defines p

namespace Current

theorem suits (h : db.Current live) : db.Suits live := by
  intro p hp
  obtain ⟨d, hd⟩ := h.defined p hp
  exact ⟨d, d, h.stored ▸ hd, hd, rfl, rfl⟩

theorem follow (h : db.Current live) : db.follow live = .ok db := by
  rcases follow_cases h.tallied live with ⟨-, hfollow⟩ | ⟨p, ⟨hp, hretyped⟩, -⟩
  · rw [hfollow, ← h.stored]
  · exact absurd (h.suits p hp) hretyped

/-- A file brings facts of predicates of the schema. -/
theorem ingest (h : db.Current live) (hs : live.Coherent) (f : FactFile) :
    (db.ingest live f).1.Current live := by
  refine ⟨(ingest_keepsTypes h.tallied live f).1, ingest_stored h.tallied h.stored f, fun p hp => ?_⟩
  rcases db.ingest_cases live f with ⟨-, e, heq⟩ | ⟨-, ⟨stored, e, heq⟩ | ⟨b, t, hb, ht, heq⟩⟩
  · rw [heq] at hp
    exact h.defined p hp
  · rw [heq] at hp
    refine h.defined p (Store.hasFacts_iff.mpr ?_)
    rw [← Store.index_setState db.store .incomplete]
    exact Store.hasFacts_iff.mp hp
  · rw [heq] at hp
    rcases Store.HasFacts.of_commit hp ht with hold | ⟨fact, hfact, rfl⟩
    · exact h.defined p hold
    · exact (FactFile.spells_of_staged hb fact hfact).defines hs

theorem ingestAll (h : db.Current live) (hs : live.Coherent) (files : List FactFile) :
    (db.ingestAll live files).1.Current live := by
  induction files generalizing db with
  | nil => exact h
  | cons f files ih =>
      have hnext := h.ingest hs f
      cases hingest : db.ingest live f with
      | mk next r =>
          rw [hingest] at hnext
          cases r with
          | error e => rwa [ingestAll_cons_error hingest]
          | ok n =>
              rw [ingestAll_cons_ok hingest]
              exact ih hnext

/-- Adding a file fails only where the file cannot be staged. -/
theorem stage_of_fails (h : db.Current live) (hbuilding : db.state = .building) {e : Error}
    (hfails : (db.ingest live f).2 = .error e) : f.stage live db.store = .error e := by
  unfold Database.ingest at hfails
  rw [check_of_building hbuilding] at hfails
  dsimp only at hfails
  rw [h.follow] at hfails
  dsimp only at hfails
  unfold Database.addFile at hfails
  rw [h.stored] at hfails
  cases hb : f.stage live db.store with
  | error e' =>
      rw [hb] at hfails
      exact congrArg Except.error (Except.error.inj hfails)
  | ok b =>
      obtain ⟨t, ht⟩ := Store.commit_of_stage hb hbuilding
      simp only [hb, ht, bind, Except.bind, pure, Except.pure] at hfails
      cases hfails

/-- Sealing a building database is not refused. -/
theorem finalize (h : db.Current live) (hbuilding : db.state = .building) :
    ∃ done, db.finalize live = .ok done := by
  rcases finalize_follow_cases h.tallied hbuilding live with ⟨-, hdone⟩ | ⟨p, ⟨hp, hretyped⟩, -⟩
  · exact hdone
  · exact absurd (h.suits p hp) hretyped

end Current

theorem state_create (repo : Repo) (store : Store) (live : Schema) :
    (Database.create repo store live).state = .building := by
  cases store <;> rfl

theorem sameKind_create (repo : Repo) (store : Store) (live : Schema) :
    store.SameKind (Database.create repo store live).store := by
  cases store <;> trivial

theorem ingestAll_sameKind (db : Database) (live : Schema) (files : List FactFile) :
    db.store.SameKind (db.ingestAll live files).1.store := by
  induction files generalizing db with
  | nil => exact .refl _
  | cons f files ih =>
      have hkind := db.ingest_sameKind live f
      cases hingest : db.ingest live f with
      | mk next r =>
          rw [hingest] at hkind
          cases r with
          | error e => rwa [ingestAll_cons_error hingest]
          | ok n =>
              rw [ingestAll_cons_ok hingest]
              exact hkind.trans (ih next)

/-- A new database has no facts. -/
theorem current_create (repo : Repo) (store : Store) (htallied : store.index.Tallied)
    (hempty : ∀ p, ¬ store.HasFacts p) (live : Schema) :
    (Database.create repo store live).Current live where
  tallied := tallied_create htallied repo live
  stored := rfl
  defined p hp := by
    refine absurd (Store.hasFacts_iff.mpr ?_) (hempty p)
    rw [← Store.index_saveSchema store live.toBytes, ← Store.index_setState _ .building]
    exact Store.hasFacts_iff.mp hp

/-- A database that is sealed has the facts that it had, and the live schema. -/
structure Seals (db : Database) (live : Schema) (done : Database) : Prop where
  repo : done.repo = db.repo
  state : done.state = .complete
  stored : done.stored = live
  facts : FactStore.SameFacts db.store done.store
  kind : db.store.SameKind done.store

theorem seals_of_finalize (h : db.finalize live = .ok done) : db.Seals live done := by
  obtain ⟨-, rfl⟩ := finalize_eq h
  obtain ⟨repo, store, stored⟩ := db
  cases store <;> exact ⟨rfl, rfl, rfl, ⟨rfl, rfl, rfl, rfl, rfl, rfl, rfl, rfl⟩, trivial⟩

end Database

/-! ## Catalogs -/

namespace Catalog

open Action

variable {c c₀ c' : Catalog} {repo made : Repo} {db new : Database} {files : List FactFile}
  {paths : List Path}

/-! ### Identities -/

/-- The first free hash of a name is the least number that no database of the name has. -/
theorem freshHash_least (c : Catalog) (name : String) :
    ∃ n : Nat, c.freshHash name = toString n ∧ c.databases.get? ⟨name, toString n⟩ = none ∧
      ∀ m < n, ∃ db, c.databases.get? ⟨name, toString m⟩ = some db := by
  have hfind : c.freshHash name = (((List.range (c.databases.size + 1)).find? fun n =>
      !c.databases.contains ⟨name, toString n⟩).map toString).getD "" := by
    rw [freshHash, List.find?_map]
    rfl
  cases hn : (List.range (c.databases.size + 1)).find? fun n =>
      !c.databases.contains ⟨name, toString n⟩ with
  | some n =>
      obtain ⟨hfree, -, hleast⟩ := List.find?_range_eq_some.mp hn
      refine ⟨n, by rw [hfind, hn]; rfl, ?_, fun m hm => ?_⟩
      · by_contra hthere
        have hthere := SortedMap.contains_iff.mpr (Option.ne_none_iff_exists'.mp hthere)
        rw [hthere] at hfree
        cases hfree
      · refine SortedMap.contains_iff.mp ?_
        simpa using hleast m hm
  | none =>
      -- more numbers than databases cannot all be taken
      have htaken : ∀ n < c.databases.size + 1, (⟨name, toString n⟩ : Repo) ∈ c.databases.keys := by
        intro n hn'
        have hthere := List.find?_eq_none.mp hn n (List.mem_range.mpr hn')
        exact SortedMap.mem_keys_iff.mpr (SortedMap.contains_iff.mp (by simpa using hthere))
      have hnodup : ((List.range (c.databases.size + 1)).map fun n =>
          (⟨name, toString n⟩ : Repo)).Nodup := by
        refine List.Nodup.map (fun m n hmn => ?_) List.nodup_range
        exact decimal_inj (congrArg Repo.hash hmn)
      have hsub : ((List.range (c.databases.size + 1)).map fun n => (⟨name, toString n⟩ : Repo)) ⊆
          c.databases.keys := by
        intro r hr
        obtain ⟨n, hn', rfl⟩ := List.mem_map.mp hr
        exact htaken n (List.mem_range.mp hn')
      have hlength := hnodup.length_le_of_subset hsub
      have hkeys : c.databases.keys.length = c.databases.size := List.length_map ..
      rw [List.length_map, List.length_range, hkeys] at hlength
      omega

/-- The identity that a new database gets. -/
def identity (c : Catalog) (name : String) (hash : Option String) : Except RepoFault Repo := do
  Repo.checkName name
  match hash with
  | some h =>
    Repo.checkHash h
    return ⟨name, h⟩
  | none => return ⟨name, c.freshHash name⟩

theorem create_eval_identity (c : Catalog) (name : String) (hash : Option String) :
    (create name hash).eval c = match c.identity name hash with
      | .error fault => (.error (.type (.repo fault)), c)
      | .ok repo =>
        match c.databases.get? repo with
        | some db => (.error (.alreadyExists repo db.state), c)
        | none =>
          match (newStore repo).eval c with
          | (.error e, c') => (.error e, c')
          | (.ok store, c') =>
            (.ok (Database.create repo store c.live), c'.put (Database.create repo store c.live)) := by
  unfold create
  simp only [eval_bind, eval_get, eval_lift]
  generalize hchecked : Except.mapError _ _ = checked
  have hchecked : checked = (c.identity name hash).mapError fun e => .type (.repo e) := hchecked.symm
  subst hchecked
  cases c.identity name hash with
  | error fault => rfl
  | ok repo =>
      dsimp only [Except.mapError]
      cases hdb : c.databases.get? repo with
      | some db => rfl
      | none =>
          simp only [eval_bind]
          cases (newStore repo).eval c with
          | mk r c' => cases r <;> rfl

/-! ### What a load is asked to do -/

/-- The name of the database that a load makes: the one it is given, or the stem of the first
file. -/
def loadName (repo : Option Repo) (paths : List Path) : Option String :=
  (repo.map (·.name)).or (paths.head?.bind Path.stem?)

/-- Why a load is refused. -/
inductive Refuses (c : Catalog) : Option Repo → List Path → Error → Prop where
  | unread {repo : Option Repo} {paths : List Path} {p : Path} {e : Error} (hp : p ∈ paths)
      (h : c.files.readFacts p = .error e) : Refuses c repo paths e
  | unnamed {repo : Option Repo} {paths : List Path} (h : loadName repo paths = none) :
      Refuses c repo paths (.type .nothingToLoad)
  | badName {repo : Option Repo} {paths : List Path} {name : String} {fault : RepoFault}
      (hname : loadName repo paths = some name) (h : Repo.checkName name = .error fault) :
      Refuses c repo paths (.type (.repo fault))
  | badHash {repo : Repo} {paths : List Path} {fault : RepoFault}
      (h : Repo.checkHash repo.hash = .error fault) :
      Refuses c (some repo) paths (.type (.repo fault))
  | taken {repo : Repo} {paths : List Path} {db : Database} (h : c.databases.get? repo = some db) :
      Refuses c (some repo) paths (.alreadyExists repo db.state)

/-- What a load goes on with that is not refused: all its files, and an identity that is free.
Without a hash it is the least number that is free for the name. -/
structure Accepts (c : Catalog) (repo : Option Repo) (paths : List Path) (made : Repo)
    (files : List FactFile) : Prop where
  read : paths.mapM c.files.readFacts = .ok files
  named : loadName repo paths = some made.name
  valid : Repo.checkName made.name = .ok ()
  given : ∀ r, repo = some r → made = r ∧ Repo.checkHash r.hash = .ok ()
  fresh : repo = none → ∃ n : Nat, made.hash = toString n ∧
    ∀ m < n, ∃ db, c.databases.get? ⟨made.name, toString m⟩ = some db
  free : c.databases.get? made = none

/-- Making a database for files, filling and sealing it. -/
def buildNew (made : Repo) (files : List FactFile) : Action Repo := do
  let live := (← get).live
  let store ← newStore made
  modify (·.put (Database.create made store live))
  build made files
  return made

/-- What is accepted is not refused for any reason. -/
theorem Accepts.not_refuses {repo : Option Repo} (h : c.Accepts repo paths made files) (e : Error) :
    ¬ c.Refuses repo paths e := by
  intro hrefuses
  cases hrefuses with
  | unread hp hfails =>
      obtain ⟨f, hf⟩ := Outcome.ok_of_mapM h.read hp
      rw [hfails] at hf
      cases hf
  | unnamed hnone => cases h.named.symm.trans hnone
  | badName hname hbad =>
      cases h.named.symm.trans hname
      rw [h.valid] at hbad
      cases hbad
  | badHash hbad =>
      rw [(h.given _ rfl).2] at hbad
      cases hbad
  | taken hdb =>
      obtain ⟨rfl, -⟩ := h.given _ rfl
      cases h.free.symm.trans hdb

/-- A load whose database cannot be created is refused. -/
theorem load_of_refused {repo : Option Repo} {e : Error}
    (hread : paths.mapM c.files.readFacts = .ok files)
    (hcreate : (createFor repo paths).eval c = (.error e, c)) :
    (load repo paths).eval c = (.error e, c) := by
  simp only [eval_load, hread, eval_bind, hcreate]

/-- A load goes on where its identity is free. -/
theorem load_of_create {repo : Option Repo} {name : String} {hash : Option String}
    (hread : paths.mapM c.files.readFacts = .ok files)
    (hcreate : createFor repo paths = create name hash)
    (hid : c.identity name hash = .ok made) (hfree : c.databases.get? made = none) :
    (load repo paths).eval c = (buildNew made files).eval c := by
  unfold buildNew
  simp only [eval_load, hread, eval_bind, hcreate, create_eval_identity, hid, hfree, eval_get]
  cases (newStore made).eval c with
  | mk r c' => cases r <;> rfl

/-- A load is refused and changes nothing, or makes a database. -/
def RefusedOrAccepted (c : Catalog) (repo : Option Repo) (paths : List Path) : Prop :=
  (∃ e, c.Refuses repo paths e ∧ (load repo paths).eval c = (.error e, c)) ∨
    ∃ made files, c.Accepts repo paths made files ∧
      (load repo paths).eval c = (buildNew made files).eval c

theorem load_given (hread : paths.mapM c.files.readFacts = .ok files) (r : Repo) :
    c.RefusedOrAccepted (some r) paths := by
  have hcreate : createFor (some r) paths = create r.name (some r.hash) := rfl
  have hname : loadName (some r) paths = some r.name := rfl
  cases hcheck : Repo.checkName r.name with
  | error fault =>
      refine .inl ⟨_, .badName hname hcheck, load_of_refused hread ?_⟩
      rw [hcreate, create_eval_identity, identity, hcheck]
      rfl
  | ok u =>
      cases hhash : Repo.checkHash r.hash with
      | error fault =>
          refine .inl ⟨_, .badHash hhash, load_of_refused hread ?_⟩
          rw [hcreate, create_eval_identity, identity, hcheck, hhash]
          rfl
      | ok u =>
          have hid : c.identity r.name (some r.hash) = .ok r := by
            rw [identity, hcheck, hhash]
            rfl
          cases hdb : c.databases.get? r with
          | some db =>
              refine .inl ⟨_, .taken hdb, load_of_refused hread ?_⟩
              rw [hcreate, create_eval_identity, hid]
              dsimp only
              rw [hdb]
          | none =>
              refine .inr ⟨r, files, ⟨hread, hname, hcheck, ?_, ?_, hdb⟩,
                load_of_create hread hcreate hid hdb⟩
              · rintro r' hr'
                cases hr'
                exact ⟨rfl, hhash⟩
              · intro hnone
                cases hnone

theorem load_unnamed (hread : paths.mapM c.files.readFacts = .ok files) :
    c.RefusedOrAccepted none paths := by
  have hloadName : loadName none paths = paths.head?.bind Path.stem? := Option.none_or
  cases hstem : paths.head?.bind Path.stem? with
  | none =>
      refine .inl ⟨_, .unnamed (hloadName.trans hstem), load_of_refused hread ?_⟩
      unfold createFor
      rw [hstem]
      rfl
  | some name =>
      have hcreate : createFor none paths = create name none := by
        unfold createFor
        rw [hstem]
      cases hcheck : Repo.checkName name with
      | error fault =>
          refine .inl ⟨_, .badName (hloadName.trans hstem) hcheck, load_of_refused hread ?_⟩
          rw [hcreate, create_eval_identity, identity, hcheck]
          rfl
      | ok u =>
          obtain ⟨n, hn, hfree, hleast⟩ := freshHash_least c name
          have hid : c.identity name none = .ok ⟨name, toString n⟩ := by
            rw [identity, hcheck, hn]
            rfl
          refine .inr ⟨_, files, ⟨hread, hloadName.trans hstem, hcheck, ?_, ?_, hfree⟩,
            load_of_create hread hcreate hid hfree⟩
          · intro r hr
            cases hr
          · exact fun _ => ⟨n, rfl, hleast⟩

theorem load_refusedOrAccepted (c : Catalog) (repo : Option Repo) (paths : List Path) :
    c.RefusedOrAccepted repo paths := by
  cases hread : paths.mapM c.files.readFacts with
  | error e =>
      obtain ⟨p, hp, hfails⟩ := Outcome.mapM_error hread
      refine .inl ⟨e, .unread hp hfails, ?_⟩
      rw [eval_load, hread]
  | ok files =>
      cases repo with
      | some r => exact load_given hread r
      | none => exact load_unnamed hread

/-! ### What a load leaves alone -/

/-- Apart from directories that were made nothing is another. -/
structure Grows (c c' : Catalog) : Prop where
  live : c'.live = c.live
  root : c'.root = c.root
  databases : c'.databases = c.databases
  files : c.files.Grown c'.files

/-- A database is new. On disk there is a file for it, and directories were made around it.
Nothing else is another. -/
structure Adds (new : Database) (c c' : Catalog) : Prop where
  live : c'.live = c.live
  root : c'.root = c.root
  there : c'.databases.get? new.repo = some new
  databases : ∀ r, r ≠ new.repo → c'.databases.get? r = c.databases.get? r
  written : ∀ root, c.root = some root → ∃ s, new.store = .disk s ∧
    c'.files.node? (fileOf root new.repo) = some (.database s.tables)
  files : ∀ place n, n ≠ .directory → (∀ root, c.root = some root → place ≠ fileOf root new.repo) →
    (c'.files.node? place = some n ↔ c.files.node? place = some n)

/-- The store of a new database. -/
def emptyStore (c : Catalog) : Store :=
  match c.root with
  | none => .memory .empty
  | some _ => .disk .empty

theorem current_emptyStore (c : Catalog) (repo : Repo) :
    (Database.create repo c.emptyStore c.live).Current c.live := by
  unfold emptyStore
  cases c.root with
  | none =>
      exact Database.current_create repo (.memory .empty) FactIndex.tallied_empty
        (fun _ h => h rfl) c.live
  | some root =>
      exact Database.current_create repo (.disk .empty) FactIndex.tallied_empty
        (fun _ h => h rfl) c.live

/-- There is room for a new database: on disk, an empty file. -/
structure Room (repo : Repo) (c c₀ : Catalog) : Prop where
  live : c₀.live = c.live
  root : c₀.root = c.root
  databases : c₀.databases = c.databases
  empty : ∀ root, c.root = some root → c₀.files.node? (fileOf root repo) = some (.database .empty)
  files : ∀ place n, n ≠ .directory → (∀ root, c.root = some root → place ≠ fileOf root repo) →
    (c₀.files.node? place = some n ↔ c.files.node? place = some n)

/-- A new store is refused by the operating system, or there is room for it. -/
theorem newStore_room (h : c.Sound) (hnew : c.databases.get? repo = none) :
    (∃ fault c', (newStore repo).eval c = (.error (.storage fault), c') ∧ c.Grows c') ∨
      ∃ c₀, (newStore repo).eval c = (.ok c.emptyStore, c₀) ∧ Room repo c c₀ := by
  cases hroot : c.root with
  | none =>
      have hstore : c.emptyStore = .memory .empty := by
        unfold emptyStore
        rw [hroot]
      refine .inr ⟨c, ?_, rfl, rfl, rfl, fun root hr => ?_, fun _ _ _ _ => Iff.rfl⟩
      · rw [newStore_memory hroot, hstore]
      · cases hroot.symm.trans hr
  | some root =>
      have hstore : c.emptyStore = .disk .empty := by
        unfold emptyStore
        rw [hroot]
      obtain ⟨more, hgrown, ⟨fault, heval⟩ | ⟨-, heval⟩⟩ :=
        newStore_disk hroot (h.onDisk root hroot) hnew
      · exact .inl ⟨fault, _, heval, rfl, rfl, rfl, hgrown⟩
      · refine .inr ⟨{ c with files := more.put (fileOf root repo) (.database .empty) },
          hstore ▸ heval, rfl, rfl, rfl, fun root' hr => ?_, fun place n hn hplace => ?_⟩
        · cases hroot.symm.trans hr
          exact FileTree.node?_put_self ..
        · rw [FileTree.node?_put_of_ne (hplace root hroot)]
          exact hgrown.node_iff hn

/-- Writing a database where there is room for it adds it. -/
theorem Room.put (h : Room new.repo c c₀) (hkind : c.emptyStore.SameKind new.store) :
    Adds new c (c₀.put new) where
  live := h.live
  root := h.root
  there := by rw [get?_put, if_pos rfl]
  databases r hne := by rw [get?_put, if_neg hne, h.databases]
  written root hroot := by
    obtain ⟨s, hs⟩ : ∃ s, new.store = .disk s := by
      unfold emptyStore at hkind
      rw [hroot] at hkind
      cases hstore : new.store with
      | memory s =>
          rw [hstore] at hkind
          exact hkind.elim
      | disk s => exact ⟨s, rfl⟩
    refine ⟨s, hs, ?_⟩
    rw [put_files (h.root.trans hroot) hs (h.empty root hroot)]
    exact FileTree.node?_put_self ..
  files place n hn hplace := by
    rw [(onlyAt_put c₀ new).files place fun root hroot => hplace root (h.root.symm.trans hroot)]
    exact h.files place n hn hplace

/-! ### How a build ends -/

/-- A build under the live schema of a database that was just written seals it with the facts of
all files, or stops at a file that cannot be staged and leaves it incomplete. -/
theorem build_eval (c₀ : Catalog) (hs : c₀.live.Coherent) (h : db.Current c₀.live)
    (hbuilding : db.state = .building) (files : List FactFile) :
    ∃ next filled, next.repo = db.repo ∧ next.stored = c₀.live ∧ db.store.SameKind next.store ∧
      FactStore.SameFacts filled next.store ∧
      (db.store.addFiles c₀.live files = .ok filled ∧ next.state = .complete ∧
          (build db.repo files).eval (c₀.put db) = (.ok (), c₀.put next) ∨
        ∃ before f after reason, files = before ++ f :: after ∧
          db.store.addFiles c₀.live before = .ok filled ∧
          f.stage c₀.live filled = .error (.ingestion f.name (.rejected reason)) ∧
          next.state = .incomplete ∧ (build db.repo files).eval (c₀.put db) =
            (.error (.ingestion f.name (.rejected reason)), c₀.put next)) := by
  have hcurrent := h.ingestAll hs
  have hkind := db.ingestAll_sameKind c₀.live
  rcases Database.ingestAll_cases hbuilding c₀.live files with
    ⟨filled, n, hall, hfills⟩ | ⟨before, f, filled, n, e, ⟨after, hsplit⟩, hadded, hfills, hfails, hall⟩
  · have hfilled := hcurrent files
    have hfilledKind := hkind files
    rw [hall] at hfilled hfilledKind
    obtain ⟨done, hdone⟩ := hfilled.finalize hfills.state
    have hseals := Database.seals_of_finalize hdone
    have hthere : (c₀.put filled).database db.repo = .ok filled := by
      rw [database_ok_iff, get?_put, if_pos hfills.repo.symm]
    refine ⟨done, filled.store, hseals.repo.trans hfills.repo, hseals.stored,
      hfilledKind.trans hseals.kind, hseals.facts, .inl ⟨hfills.store, hseals.state, ?_⟩⟩
    unfold build
    rw [eval_tryCatch, eval_bind, eval_discard, ingest_put_eval, hall]
    dsimp only
    rw [finalize_eval, hthere]
    dsimp only
    have hlive : (c₀.put filled).live = c₀.live := rfl
    rw [hlive, hdone]
    dsimp only
    rw [put_put c₀ hseals.repo hseals.kind]
  · have hfilled := hcurrent before
    have hfilledKind := hkind before
    rw [hadded] at hfilled hfilledKind
    have hstage := hfilled.stage_of_fails hfills.state hfails
    obtain ⟨reason, rfl⟩ := FactFile.stage_error hstage
    obtain ⟨hsame, hstate⟩ := Database.sameFacts_of_fails hfills.state hfails
    have hrepo := (filled.ingest_repo c₀.live f).trans hfills.repo
    refine ⟨_, filled.store, hrepo, (hfilled.ingest hs f).stored,
      hfilledKind.trans (filled.ingest_sameKind c₀.live f), hsame,
      .inr ⟨before, f, after, reason, hsplit, hfills.store, hstage, hstate, ?_⟩⟩
    unfold build
    rw [eval_tryCatch, eval_bind, eval_discard, ingest_put_eval, hall]
    dsimp only
    rw [eval_bind, giveUp_eval, get?_put, if_pos hrepo.symm]
    dsimp only
    -- the file that failed has left the database incomplete already
    rw [hstate, if_neg (by decide)]
    rfl

/-! ### How a load ends -/

/-- How a load ends. -/
inductive LoadEnds (c : Catalog) (repo : Option Repo) (paths : List Path) :
    Except Error Repo → Catalog → Prop where
  /-- It is refused, and nothing happens. -/
  | refused {e : Error} (h : c.Refuses repo paths e) : LoadEnds c repo paths (.error e) c
  /-- The operating system refuses a file for the new database. -/
  | unwritten {made : Repo} {files : List FactFile} {fault : StorageFault} {c' : Catalog}
      (h : c.Accepts repo paths made files)
      (hstore : (newStore made).eval c = (.error (.storage fault), c')) (hgrows : c.Grows c') :
      LoadEnds c repo paths (.error (.storage fault)) c'
  /-- There is a complete database with the facts of all files in order. -/
  | complete {made : Repo} {files : List FactFile} {new : Database} {filled : Store} {c' : Catalog}
      (h : c.Accepts repo paths made files) (hadds : c.Adds new c') (hrepo : new.repo = made)
      (hstate : new.state = .complete) (hstored : new.stored = c.live)
      (hfilled : (Database.create made c.emptyStore c.live).store.addFiles c.live files = .ok filled)
      (hfacts : FactStore.SameFacts filled new.store) : LoadEnds c repo paths (.ok made) c'
  /-- A file cannot be staged on top of those before it. There is an incomplete database with the
  facts of these. -/
  | incomplete {made : Repo} {files before : List FactFile} {f : FactFile} {after : List FactFile}
      {new : Database} {filled : Store} {reason : Error} {c' : Catalog}
      (h : c.Accepts repo paths made files) (hadds : c.Adds new c') (hrepo : new.repo = made)
      (hstate : new.state = .incomplete) (hstored : new.stored = c.live)
      (hsplit : files = before ++ f :: after)
      (hfilled : (Database.create made c.emptyStore c.live).store.addFiles c.live before = .ok filled)
      (hfails : f.stage c.live filled = .error (.ingestion f.name (.rejected reason)))
      (hfacts : FactStore.SameFacts filled new.store) :
      LoadEnds c repo paths (.error (.ingestion f.name (.rejected reason))) c'

/-- A load in a catalog whose live schema is coherent ends in one of these ways. -/
theorem loadEnds_of_sound (h : c.Sound) (hs : c.live.Coherent) (repo : Option Repo)
    (paths : List Path) :
    c.LoadEnds repo paths ((load repo paths).eval c).1 ((load repo paths).eval c).2 := by
  rcases load_refusedOrAccepted c repo paths with
    ⟨e, hrefuses, heval⟩ | ⟨made, files, haccepts, heval⟩
  · rw [heval]
    exact .refused hrefuses
  · rw [heval]
    unfold buildNew
    rw [eval_bind, eval_get]
    dsimp only
    rw [eval_bind]
    rcases newStore_room h haccepts.free with ⟨fault, c', hstore, hgrows⟩ | ⟨c₀, hstore, hroom⟩
    · rw [hstore]
      exact .unwritten haccepts hstore hgrows
    · have hmodify : (modify (·.put (Database.create made c.emptyStore c.live)) : Action Unit).eval c₀ =
          (.ok (), c₀.put (Database.create made c.emptyStore c.live)) := rfl
      rw [hstore]
      dsimp only
      rw [eval_bind, hmodify]
      dsimp only
      rw [eval_bind]
      have hcurrent := c.current_emptyStore made
      have hbuild := build_eval c₀ (hroom.live.symm ▸ hs) (hroom.live.symm ▸ hcurrent)
        (Database.state_create made c.emptyStore c.live) files
      rw [hroom.live] at hbuild
      obtain ⟨new, filled, hrepo, hstored, hkind, hfacts, hends⟩ := hbuild
      have hadds : c.Adds new (c₀.put new) := by
        have hroom : Room new.repo c c₀ := hrepo ▸ hroom
        exact hroom.put ((Database.sameKind_create made c.emptyStore c.live).trans hkind)
      rcases hends with ⟨hfilled, hstate, hbuild⟩ |
        ⟨before, f, after, reason, hsplit, hfilled, hfails, hstate, hbuild⟩
      · have hbuild : (build made files).eval (c₀.put (Database.create made c.emptyStore c.live)) =
            (.ok (), c₀.put new) := hbuild
        rw [hbuild]
        exact .complete haccepts hadds hrepo hstate hstored hfilled hfacts
      · have hbuild : (build made files).eval (c₀.put (Database.create made c.emptyStore c.live)) =
            (.error (.ingestion f.name (.rejected reason)), c₀.put new) := hbuild
        rw [hbuild]
        exact .incomplete haccepts hadds hrepo hstate hstored hsplit hfilled hfails hfacts

/-- A load that there is a reason to refuse changes nothing. -/
theorem LoadEnds.eq_of_refuses {repo : Option Repo} {r : Except Error Repo} {e : Error}
    (h : c.LoadEnds repo paths r c') (he : c.Refuses repo paths e) : c' = c := by
  cases h with
  | refused => rfl
  | unwritten haccepts => exact absurd he (haccepts.not_refuses e)
  | complete haccepts => exact absurd he (haccepts.not_refuses e)
  | incomplete haccepts => exact absurd he (haccepts.not_refuses e)

/-- The catalog finds a free hash, so no database is in the way. -/
theorem LoadEnds.ne_alreadyExists {r : Except Error Repo} (h : c.LoadEnds none paths r c')
    (taken : Repo) (state : StoreState) : r ≠ .error (.alreadyExists taken state) := by
  rintro rfl
  cases h with
  | refused h =>
      cases h with
      | unread hp h =>
          obtain ⟨reason, he⟩ := FileTree.readFacts_error h
          cases he

/-! ### Runs -/

theorem registered_withLive (hlive : c.live.Registered) {r : Except Error Schema}
    (hr : ∀ live, r = .ok live → live.Registered) : (c.withLive r).live.Registered := by
  cases r with
  | error e => exact hlive
  | ok live => exact hr live rfl

/-- Whatever happens to a catalog, its live schema stays one that came of registering. -/
theorem Event.registered (h : c.Sound) (hlive : c.live.Registered) {e : Event}
    (hallowed : e.Allowed c) : (e.run c).live.Registered := by
  have hmoves {c' : Catalog} (hwritable : c.Writable) (hmoves : Moves c c') : c'.live.Registered :=
    (Moves.sound hmoves h hwritable).2.2.symm ▸ hlive
  cases e with
  | query _ _ _ | dump _ => exact hlive
  | reopen =>
      rw [run]
      cases hroot : c.root with
      | none => exact hlive
      | some root =>
          obtain ⟨c', heval, -, hsame, -⟩ := reopen_eval h hroot (hallowed (by rw [hroot]; rfl))
          dsimp only
          rw [heval]
          exact hsame.symm ▸ hlive
  | op o =>
      cases o with
      | register source =>
          rw [run, Op.run, register_eval]
          refine registered_withLive hlive fun live hread => ?_
          obtain ⟨ds, -, hds⟩ := Outcome.bind_ok_iff.mp hread
          exact hlive.registerAll hds
      | reload dir =>
          rw [run, Op.run, reload_eval]
          exact registered_withLive hlive fun live => registered_of_readSchema
      | changeFiles files => exact hlive
      | create name hash => exact hmoves hallowed (create_moving name hash c)
      | ingest repo files => exact hmoves hallowed (ingest_moving repo files c)
      | ingestPaths repo paths => exact hmoves hallowed (ingestPaths_moving repo paths c)
      | abandon repo =>
          rw [run, Op.run]
          rcases abandon_cases c repo with heval | ⟨db, -, -, heval⟩
          · exact heval.symm ▸ hlive
          · exact heval.symm ▸ hlive
      | finalize repo =>
          rw [run, Op.run]
          rcases finalize_cases c repo with ⟨e, heval⟩ | ⟨c', heval, hseals⟩
          · rw [heval]
            exact hlive
          · rw [heval]
            exact (hseals.sound h hallowed).2.2.symm ▸ hlive
      | load repo paths =>
          rw [run, Op.run]
          rcases load_cases c repo paths with
            ⟨e, c', heval, hpath⟩ | ⟨made, c₁, c', heval, hpath, -, hseals⟩
          · rw [heval]
            exact hmoves hallowed hpath
          · obtain ⟨hsound, hroot, hsame⟩ := Moves.sound hpath h hallowed
            have hseal := hseals.sound hsound (Writable.congr hallowed hroot hsame)
            rw [heval]
            exact (hseal.2.2.trans hsame).symm ▸ hlive

theorem registered_later (h : c.Sound) (hlive : c.live.Registered) {events : List Event}
    (hallowed : c.RunAllowed events) : (c.later events).live.Registered := by
  induction events generalizing c with
  | nil => exact hlive
  | cons e events ih =>
      obtain ⟨he, hevents⟩ := hallowed
      exact ih (Event.spec h he).sound (Event.registered h hlive he) hevents

/-- After any run, a load is refused and changes nothing, just where there is a reason to refuse it.
Otherwise it makes one database next to those that are there: a complete one with the facts of all
files, or an incomplete one with those of the files before the first that cannot be staged. Where
the identity is left to the catalog, the hash is the least number that is free, so no load fails
because of a database that is there. -/
theorem load_ends (start : Catalog) (hstart : start.Starts) (hlive : start.live.Registered)
    (events : List Event) (hallowed : start.RunAllowed events) (repo : Option Repo)
    (paths : List Path) :
    ∃ r c', (load repo paths).eval (start.later events) = (r, c') ∧
      (start.later events).LoadEnds repo paths r c' ∧
      (∀ e, (start.later events).Refuses repo paths e → c' = start.later events) ∧
      (repo = none → ∀ taken state, r ≠ .error (.alreadyExists taken state)) := by
  have hsound := (later_spec hstart.sound hallowed).1
  have hcoherent := (registered_later hstart.sound hlive hallowed).coherent
  have hends := loadEnds_of_sound hsound hcoherent repo paths
  refine ⟨_, _, rfl, hends, fun e => hends.eq_of_refuses, fun hnone => ?_⟩
  subst hnone
  exact hends.ne_alreadyExists

/-- Two fact files, and a directory for databases. The second file fails after a fact that it
defines in place. -/
def twoFiles : FileTree :=
  ((FileTree.startingAt []).put ["f.json"] (.file (Binary.textBytes
    "[\x7b\"predicate\": \"a.P\", \"facts\": [\x7b\"key\": \"x\"\x7d]\x7d]"))).put ["g.json"]
    (.file (Binary.textBytes
      "[\x7b\"predicate\": \"a.Q\",
        \"facts\": [\x7b\"key\": \x7b\"p\": \x7b\"key\": \"y\"\x7d, \"n\": \"z\"\x7d\x7d]\x7d]"))

def filesShelf : Catalog := ((openDirectory ⟨"db"⟩).eval (inMemory twoFiles .builtin)).2

theorem filesShelf_starts : filesShelf.Starts := by
  have hopen : ((openDirectory ⟨"db"⟩).eval (inMemory twoFiles .builtin)).1 = .ok () := rfl
  exact ⟨twoFiles, .builtin, .inr ⟨⟨"db"⟩, Prod.ext hopen rfl⟩⟩

/-- The first file is loaded. -/
def loadedOnce : List Event :=
  [.op (.register "schema a.1 \x7b predicate P : string predicate Q : \x7b p : P, n : nat \x7d \x7d"),
    .op (.load none [⟨"f.json"⟩])]

theorem load_ends_loadedOnce :
    ∃ e c' next,
      (load none [⟨"f.json"⟩, ⟨"g.json"⟩]).eval (filesShelf.later loadedOnce) = (.error e, c') ∧
      c'.database ⟨"f", "1"⟩ = .ok next ∧ next.state = .incomplete ∧
      FactStore.scan next.store ⟨"a.P", 1⟩ = [.first] ∧
      c'.databases.get? ⟨"f", "0"⟩ = (filesShelf.later loadedOnce).databases.get? ⟨"f", "0"⟩ := by
  have hallowed : filesShelf.RunAllowed loadedOnce := by
    refine ⟨trivial, ?_, trivial⟩
    unfold Event.Allowed
    decide +kernel
  have hlive : filesShelf.live.Registered := Schema.Registered.builtin
  obtain ⟨hfree, hfails, hthere⟩ :
      (filesShelf.later loadedOnce).databases.contains ⟨"f", "1"⟩ = false ∧
      ((load none [⟨"f.json"⟩, ⟨"g.json"⟩]).eval (filesShelf.later loadedOnce)).1.toOption = none ∧
      (((load none [⟨"f.json"⟩, ⟨"g.json"⟩]).eval (filesShelf.later loadedOnce)).2.databases.get?
        ⟨"f", "1"⟩).any fun db => FactStore.scan db.store ⟨"a.P", 1⟩ = [.first] := by
    decide +kernel
  obtain ⟨next, hnext, hscan⟩ := (Option.any_eq_true ..).mp hthere
  have hscan : FactStore.scan next.store ⟨"a.P", 1⟩ = [.first] := by simpa using hscan
  obtain ⟨r, c', heval, hends, -, -⟩ := load_ends filesShelf filesShelf_starts hlive loadedOnce
    hallowed none [⟨"f.json"⟩, ⟨"g.json"⟩]
  rw [heval] at hfails hnext
  have hnew : (filesShelf.later loadedOnce).databases.get? ⟨"f", "1"⟩ ≠ some next := by
    intro hthere
    rw [SortedMap.contains_iff.mpr ⟨next, hthere⟩] at hfree
    cases hfree
  cases hends with
  | refused h => exact absurd hnext hnew
  | unwritten h hstore hgrows => exact absurd (hgrows.databases ▸ hnext) hnew
  | complete h hadds => cases hfails
  | @incomplete made files before f after new filled reason c' h hadds hrepo hstate =>
      have hmade : (⟨"f", "1"⟩ : Repo) = new.repo := by
        by_contra hne
        exact hnew ((hadds.databases _ hne).symm.trans hnext)
      have hnext' := hadds.there
      rw [← hmade, hnext] at hnext'
      cases hnext'
      refine ⟨_, c', next, heval, database_ok_iff.mpr hnext, hstate, hscan, hadds.databases _ ?_⟩
      rw [← hmade]
      decide

end Catalog

end Factbase
