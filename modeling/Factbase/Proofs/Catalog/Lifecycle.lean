import Factbase.Proofs.Catalog.Restart

/-!
# The life of a database

A database is building at first, and is complete or incomplete in the
end. A complete one is the same ever after: nothing that happens to its
catalog changes its facts, its schema or what it answers, closing and
opening it again included. A building one lives on in memory only as far
as its schema is concerned: after a restart it has the schema that was
written when it was created.
-/

namespace Factbase

/-! ## Databases -/

namespace Database

/-- What may become of a database. Facts are added and the state changes only while it is
building, and the schema does not change any more once it is complete. -/
structure Leads (db next : Database) : Prop where
  repo : next.repo = db.repo
  store : db.state ≠ .building → next.store = db.store
  stored : db.state = .complete → next.stored = db.stored

namespace Leads

variable {db next last : Database}

theorem refl (db : Database) : db.Leads db := ⟨rfl, fun _ => rfl, fun _ => rfl⟩

theorem state (h : db.Leads next) (hstate : db.state ≠ .building) : next.state = db.state := by
  rw [Database.state, Database.state, h.store hstate]

theorem eq_of_complete (h : db.Leads next) (hcomplete : db.state = .complete) : next = db := by
  have hstore := h.store (by rw [hcomplete]; decide)
  have hstored := h.stored hcomplete
  have hrepo := h.repo
  cases db
  cases next
  simp_all

theorem trans (h : db.Leads next) (h' : next.Leads last) : db.Leads last where
  repo := h'.repo.trans h.repo
  store hstate := (h'.store (h.state hstate ▸ hstate)).trans (h.store hstate)
  stored hcomplete := by
    obtain rfl := h.eq_of_complete hcomplete
    exact h'.stored hcomplete

theorem of_building (hbuilding : db.state = .building) (hrepo : next.repo = db.repo) :
    db.Leads next where
  repo := hrepo
  store hne := absurd hbuilding hne
  stored hcomplete := by
    rw [hbuilding] at hcomplete
    cases hcomplete

end Leads

theorem state_setState (db : Database) (state : StoreState) : (db.setState state).state = state := by
  obtain ⟨repo, store, stored⟩ := db
  cases store <;> rfl

end Database

/-- A commit leaves the state of a store as it is. -/
theorem Store.state_commit {s t : Store} {b : FactBatch} (h : FactStore.commit s b = .ok t) :
    FactStore.state t = FactStore.state s := by
  cases s with
  | disk s =>
      obtain ⟨s', hs', rfl⟩ := Outcome.map_ok_iff.mp h
      exact (DiskStore.commit_frame hs').1
  | memory s =>
      obtain ⟨s', hs', rfl⟩ := Outcome.map_ok_iff.mp h
      obtain ⟨-, -, hout⟩ := Outcome.bind_ok_iff.mp hs'
      cases hout
      rfl

/-! ## Catalogs -/

namespace Catalog

open Action

variable {c c' c'' : Catalog} {repo : Repo} {db : Database}

/-- Every database is still there, and leads where one may. -/
def Kept (c c' : Catalog) : Prop :=
  ∀ repo db, c.databases.get? repo = some db →
    ∃ next, c'.databases.get? repo = some next ∧ db.Leads next

/-- Every database that is complete was so before, and `except` is the only one that need not
have been. -/
def CompleteBefore (except : Repo → Prop) (c c' : Catalog) : Prop :=
  ∀ repo next, c'.databases.get? repo = some next → next.state = .complete →
    c.databases.get? repo = some next ∨ except repo

theorem Kept.refl (c : Catalog) : c.Kept c := fun _ db h => ⟨db, h, .refl db⟩

theorem Kept.trans (h : c.Kept c') (h' : c'.Kept c'') : c.Kept c'' := by
  intro repo db hdb
  obtain ⟨next, hnext, hleads⟩ := h repo db hdb
  obtain ⟨last, hlast, hleads'⟩ := h' repo next hnext
  exact ⟨last, hlast, hleads.trans hleads'⟩

theorem CompleteBefore.refl {except : Repo → Prop} (c : Catalog) : CompleteBefore except c c :=
  fun _ _ h _ => .inl h

theorem CompleteBefore.trans {except : Repo → Prop} (h : CompleteBefore except c c')
    (h' : CompleteBefore except c' c'') : CompleteBefore except c c'' := by
  intro repo last hlast hcomplete
  rcases h' repo last hlast hcomplete with hnext | hexcept
  · exact h repo last hnext hcomplete
  · exact .inr hexcept

theorem get?_put (c : Catalog) (db : Database) (repo : Repo) :
    (c.put db).databases.get? repo = if repo = db.repo then some db else c.databases.get? repo :=
  SortedMap.get?_insert ..

theorem kept_put (h : c.Sound) (hdb : c.databases.get? repo = some db) {next : Database}
    (hleads : db.Leads next) : c.Kept (c.put next) := by
  intro repo' db' hdb'
  rw [get?_put]
  split
  · rename_i heq
    rw [hleads.repo, h.named repo db hdb] at heq
    subst heq
    rw [hdb] at hdb'
    cases hdb'
    exact ⟨next, rfl, hleads⟩
  · exact ⟨db', hdb', .refl db'⟩

theorem kept_new {new : Database} (hnew : c.databases.get? new.repo = none)
    (hsame : c'.databases = c.databases) : c.Kept (c'.put new) := by
  intro repo db hdb
  rw [get?_put, hsame]
  split
  · rename_i heq
    subst heq
    rw [hnew] at hdb
    cases hdb
  · exact ⟨db, hdb, .refl db⟩

theorem completeBefore_put {except : Repo → Prop} {next : Database}
    (hsame : c'.databases = c.databases)
    (hnext : next.state = .complete → c.databases.get? next.repo = some next ∨ except next.repo) :
    CompleteBefore except c (c'.put next) := by
  intro repo last hlast hcomplete
  rw [get?_put, hsame] at hlast
  split at hlast
  · rename_i heq
    subst heq
    cases hlast
    exact hnext hcomplete
  · exact .inl hlast

theorem Move.kept (hmove : Move c c') (h : c.Sound) (except : Repo → Prop) :
    c.Kept c' ∧ CompleteBefore except c c' := by
  cases hmove with
  | @fill repo db f hdb =>
      have hrepo := db.ingest_repo c.live f
      have hname := h.named repo db hdb
      rcases db.ingest_cases c.live f with ⟨-, e, heq⟩ | ⟨hbuilding, hcases⟩
      · rw [heq]
        refine ⟨kept_put h hdb (.refl db), completeBefore_put rfl fun _ => .inl ?_⟩
        rw [hname]
        exact hdb
      · refine ⟨kept_put h hdb (.of_building hbuilding hrepo), completeBefore_put rfl fun hcomplete => ?_⟩
        have hstate : (db.ingest c.live f).1.state ≠ .complete := by
          rcases hcases with ⟨stored, e, heq⟩ | ⟨b, t, -, ht, heq⟩
          · rw [heq, Database.state_setState]
            decide
          · rw [heq]
            show FactStore.state t ≠ .complete
            have hstate : FactStore.state db.store = .building := hbuilding
            rw [Store.state_commit ht, hstate]
            decide
        exact absurd hcomplete hstate
  | @giveUp repo db hdb hbuilding =>
      refine ⟨kept_put h hdb (.of_building hbuilding rfl), completeBefore_put rfl fun hcomplete => ?_⟩
      rw [Database.state_setState] at hcomplete
      cases hcomplete
  | refuse hnew heval =>
      obtain ⟨-, -, hsame⟩ := newStore_frame h hnew heval
      refine ⟨fun repo db hdb => ⟨db, hsame ▸ hdb, .refl db⟩, fun repo db hdb _ => .inl (hsame ▸ hdb)⟩
  | @create repo store c₁ hnew heval =>
      obtain ⟨-, -, hsame⟩ := newStore_frame h hnew heval
      refine ⟨kept_new hnew hsame, completeBefore_put hsame fun hcomplete => ?_⟩
      have hstate : (Database.create repo store c.live).state = .building := by
        cases store <;> rfl
      rw [hstate] at hcomplete
      cases hcomplete

theorem Moves.kept (hmoves : Moves c c') (h : c.Sound) (hwritable : c.Writable)
    (except : Repo → Prop) : c.Kept c' ∧ CompleteBefore except c c' := by
  induction hmoves with
  | refl => exact ⟨.refl c, .refl c⟩
  | tail hmoves hmove ih =>
      obtain ⟨hsound, -, -⟩ := Moves.sound hmoves h hwritable
      obtain ⟨hkept, hbefore⟩ := hmove.kept hsound except
      exact ⟨ih.1.trans hkept, ih.2.trans hbefore⟩

theorem Seals.kept (hseals : c.Seals repo c') (h : c.Sound) :
    c.Kept c' ∧ CompleteBefore (· = repo) c c' ∧ ∃ db, c'.databases.get? repo = some db := by
  obtain ⟨db, done, hdb, hdone, rfl⟩ := hseals
  obtain ⟨hbuilding, heq⟩ := Database.finalize_eq hdone
  have hrepo : done.repo = db.repo := by rw [heq]
  have hname : done.repo = repo := hrepo.trans (h.named repo db hdb)
  refine ⟨kept_put h hdb (.of_building hbuilding hrepo),
    completeBefore_put rfl fun _ => .inr hname, done, ?_⟩
  rw [get?_put, if_pos hname.symm]

theorem Restarts.kept (h : c.Restarts c') (except : Repo → Prop) :
    c.Kept c' ∧ CompleteBefore except c c' := by
  refine ⟨fun repo db hdb => ?_, fun repo next hnext hcomplete => .inl ?_⟩
  · obtain ⟨next, hnext, hrestarts⟩ := (h repo).2 db hdb
    refine ⟨next, hnext, hrestarts.repo, fun hstate => ?_, fun hcomplete => ?_⟩
    · rw [hrestarts.store, if_neg hstate]
    · rw [hrestarts.complete hcomplete]
  · cases hdb : c.databases.get? repo with
    | none =>
        rw [(h repo).1 hdb] at hnext
        cases hnext
    | some db =>
        obtain ⟨next', hnext', hrestarts⟩ := (h repo).2 db hdb
        rw [hnext] at hnext'
        cases hnext'
        have hstate : db.state = .complete := by
          rw [Database.state, hrestarts.store] at hcomplete
          split at hcomplete
          · rename_i hbuilding
            have hset := Database.state_setState db .incomplete
            rw [Database.state, Database.setState] at hset
            rw [hset] at hcomplete
            cases hcomplete
          · exact hcomplete
        rw [hrestarts.complete hstate]

/-! ## Events -/

/-- What can happen to a catalog. -/
inductive Event where
  | op (o : Op)
  | query (repo : Repo) (text : String) (o : QueryOptions)
  | dump (repo : Repo)
  /-- Close a catalog on disk and open it again. -/
  | reopen

namespace Event

/-- The catalog that an event leaves behind. Queries and dumps read only. -/
def run (c : Catalog) : Event → Catalog
  | .op o => o.run c
  | .query _ _ _ | .dump _ => c
  | .reopen =>
    match c.root with
    | none => c
    | some root => ((openDirectory root.path).eval c).2

/-- The files under a root are as they were, and paths lead there as before. -/
def Untouched (root : CatalogRoot) (t u : FileTree) : Prop :=
  u.find root.path = t.find root.path ∧ ∀ q, root.place <+: q → u.node? q = t.node? q

/-- What is assumed where a catalog is on disk: schemas that are stored are within the limit,
nobody else changes the files, and tables that are read are of a size that a machine can hold. -/
def Allowed (c : Catalog) : Event → Prop
  | .op (.create _ _) | .op (.ingest _ _) | .op (.ingestPaths _ _) | .op (.finalize _)
  | .op (.load _ _) => c.Writable
  | .op (.changeFiles files) => ∀ root, c.root = some root → Untouched root c.files files
  | .reopen => c.root.isSome → c.Holdable
  | _ => True

/-- An event seals a database: it finalizes it, or loads files into a new one, and succeeds. -/
def Seals (c : Catalog) (repo : Repo) : Event → Prop
  | .op (.finalize r) => r = repo ∧ ((finalize r).eval c).1 = .ok ()
  | .op (.load r paths) => ((load r paths).eval c).1 = .ok repo
  | _ => False

/-- An event creates a database. -/
def Creates (c : Catalog) (repo : Repo) : Event → Prop
  | .op (.create name hash) => ∃ db, ((create name hash).eval c).1 = .ok db ∧ db.repo = repo
  | .op (.load r paths) => ((load r paths).eval c).1 = .ok repo
  | _ => False

end Event

/-- The catalog after events in order. -/
def later (c : Catalog) (events : List Event) : Catalog := events.foldl Event.run c

/-- Every event of a run is allowed where its turn comes. -/
def RunAllowed : Catalog → List Event → Prop
  | _, [] => True
  | c, e :: events => e.Allowed c ∧ RunAllowed (e.run c) events

/-- What one event does. -/
structure Event.Spec (c : Catalog) (e : Event) : Prop where
  sound : (e.run c).Sound
  root : (e.run c).root = c.root
  kept : c.Kept (e.run c)
  complete : CompleteBefore (fun repo => e.Seals c repo) c (e.run c)
  created : ∀ repo, e.Creates c repo →
    c.databases.get? repo = none ∧ ∃ db, (e.run c).databases.get? repo = some db

section Steps

variable (h : c.Sound)

include h

/-- An event that only moves. -/
theorem Event.spec_of_moves {e : Event} (hwritable : c.Writable) (hmoves : Moves c (e.run c))
    (hcreated : ∀ repo, e.Creates c repo →
      c.databases.get? repo = none ∧ ∃ db, (e.run c).databases.get? repo = some db) : e.Spec c := by
  obtain ⟨hsound, hroot, -⟩ := Moves.sound hmoves h hwritable
  obtain ⟨hkept, hcomplete⟩ := Moves.kept hmoves h hwritable fun repo => e.Seals c repo
  exact ⟨hsound, hroot, hkept, hcomplete, hcreated⟩

/-- An event that leaves the databases and their files alone. -/
theorem Event.spec_of_same {e : Event} (hroot : (e.run c).root = c.root)
    (hsame : (e.run c).databases = c.databases)
    (hfiles : ∀ root, c.root = some root → OnDisk root (e.run c).files c.databases)
    (hcreated : ∀ repo, ¬ e.Creates c repo) : e.Spec c where
  sound := ⟨fun repo db hdb => h.named repo db (hsame ▸ hdb),
    fun root hr => hsame ▸ hfiles root (hroot ▸ hr)⟩
  root := hroot
  kept _ db hdb := ⟨db, hsame ▸ hdb, .refl db⟩
  complete _ _ hdb _ := .inl (hsame ▸ hdb)
  created repo hc := absurd hc (hcreated repo)

theorem finalize_spec (hwritable : c.Writable) (repo : Repo) :
    (Event.op (.finalize repo)).Spec c := by
  have hcreated : ∀ r, ¬ (Event.op (.finalize repo)).Creates c r := fun _ hc => hc
  rcases finalize_cases c repo with ⟨e, heval⟩ | ⟨c', heval, hseals⟩
  · have hrun : (Event.op (.finalize repo)).run c = c := by rw [Event.run, Op.run, heval]
    exact Event.spec_of_same h (by rw [hrun]) (by rw [hrun])
      (fun root hr => by rw [hrun]; exact h.onDisk root hr) hcreated
  · have hrun : (Event.op (.finalize repo)).run c = c' := by rw [Event.run, Op.run, heval]
    obtain ⟨hsound, hroot, -⟩ := hseals.sound h hwritable
    obtain ⟨hkept, hcomplete, -⟩ := hseals.kept h
    refine ⟨hrun ▸ hsound, hrun ▸ hroot, hrun ▸ hkept, fun r db hdb hdone => ?_,
      fun r hc => absurd hc (hcreated r)⟩
    rw [hrun] at hdb
    rcases hcomplete r db hdb hdone with hbefore | rfl
    · exact .inl hbefore
    · exact .inr ⟨rfl, by rw [heval]⟩

theorem load_spec (hwritable : c.Writable) (repo : Option Repo) (paths : List Path) :
    (Event.op (.load repo paths)).Spec c := by
  rcases load_cases c repo paths with ⟨e, c', heval, hmoves⟩ | ⟨made, c₁, c', heval, hmoves, hnew, hseals⟩
  · have hrun : (Event.op (.load repo paths)).run c = c' := by rw [Event.run, Op.run, heval]
    refine Event.spec_of_moves h hwritable (hrun ▸ hmoves) fun r hc => ?_
    have hok : ((load repo paths).eval c).1 = .ok r := hc
    rw [heval] at hok
    cases hok
  · have hrun : (Event.op (.load repo paths)).run c = c' := by rw [Event.run, Op.run, heval]
    obtain ⟨hsound₁, hroot₁, hlive₁⟩ := Moves.sound hmoves h hwritable
    obtain ⟨hsound, hroot, -⟩ := hseals.sound hsound₁ (hwritable.congr hroot₁ hlive₁)
    obtain ⟨hkept, hcomplete, hthere⟩ := hseals.kept hsound₁
    obtain ⟨hkept₁, hcomplete₁⟩ := Moves.kept hmoves h hwritable
      fun r => (Event.op (.load repo paths)).Seals c r
    refine ⟨hrun ▸ hsound, hrun ▸ hroot.trans hroot₁, hrun ▸ hkept₁.trans hkept,
      fun r db hdb hdone => ?_, fun r hc => ?_⟩
    · rw [hrun] at hdb
      rcases hcomplete r db hdb hdone with hbefore | rfl
      · exact hcomplete₁ r db hbefore hdone
      · refine .inr ?_
        show ((load repo paths).eval c).1 = .ok r
        rw [heval]
    · have hok : ((load repo paths).eval c).1 = .ok r := hc
      rw [heval] at hok
      cases hok
      exact ⟨hnew, hrun ▸ hthere⟩

theorem create_spec (hwritable : c.Writable) (name : String) (hash : Option String) :
    (Event.op (.create name hash)).Spec c := by
  refine Event.spec_of_moves h hwritable (create_moving name hash c) fun repo hc => ?_
  obtain ⟨db, hok, rfl⟩ := hc
  rcases create_eval c name hash with ⟨e, c', heval, -⟩ | ⟨db', c', heval, -, hnew, hthere⟩
  · rw [heval] at hok
    cases hok
  · rw [heval] at hok
    cases hok
    refine ⟨hnew, db, ?_⟩
    rw [Event.run, Op.run, heval]
    exact hthere

/-- Giving up a build needs no schema to be written. -/
theorem abandon_spec (repo : Repo) : (Event.op (.abandon repo)).Spec c := by
  have hcreated : ∀ r, ¬ (Event.op (.abandon repo)).Creates c r := fun _ hc => hc
  rcases abandon_cases c repo with heval | ⟨db, hdb, hbuilding, heval⟩
  · have hrun : (Event.op (.abandon repo)).run c = c := heval
    exact Event.spec_of_same h (by rw [hrun]) (by rw [hrun])
      (fun root hr => by rw [hrun]; exact h.onDisk root hr) hcreated
  · have hrun : (Event.op (.abandon repo)).run c = c.put (db.setState .incomplete) := heval
    obtain ⟨hkept, hcomplete⟩ := (Move.giveUp hdb hbuilding).kept h
      fun r => (Event.op (.abandon repo)).Seals c r
    exact ⟨hrun ▸ h.put hdb rfl fun _ s hs => ⟨_, hs.giveUp⟩, hrun ▸ rfl, hrun ▸ hkept,
      hrun ▸ hcomplete, fun r hc => absurd hc (hcreated r)⟩

theorem withLive_spec {e : Event} {r : Except Error Schema} (hrun : e.run c = c.withLive r)
    (hcreated : ∀ repo, ¬ e.Creates c repo) : e.Spec c := by
  have hsame : (c.withLive r).root = c.root ∧ (c.withLive r).databases = c.databases ∧
      (c.withLive r).files = c.files := by
    cases r <;> exact ⟨rfl, rfl, rfl⟩
  obtain ⟨hroot, hdatabases, hfiles⟩ := hsame
  refine Event.spec_of_same h (hrun ▸ hroot) (hrun ▸ hdatabases) (fun root hr => ?_) hcreated
  rw [hrun, hfiles]
  exact h.onDisk root hr

theorem reopen_spec (hallowed : Event.reopen.Allowed c) : Event.reopen.Spec c := by
  have hcreated : ∀ r, ¬ Event.reopen.Creates c r := fun _ hc => hc
  cases hroot : c.root with
  | none =>
      have hrun : Event.reopen.run c = c := by rw [Event.run, hroot]
      exact Event.spec_of_same h (by rw [hrun]) (by rw [hrun])
        (fun root hr => by rw [hrun]; exact h.onDisk root hr) hcreated
  | some root =>
      have hholdable : c.Holdable := hallowed (by rw [hroot]; rfl)
      obtain ⟨c', heval, hroot', -, hrestarts⟩ := reopen_eval h hroot hholdable
      have hrun : Event.reopen.run c = c' := by
        rw [Event.run, hroot]
        dsimp only
        rw [heval]
      obtain ⟨hkept, hcomplete⟩ := hrestarts.kept fun repo => Event.reopen.Seals c repo
      refine ⟨hrun ▸ (sound_openDirectory heval).1, ?_, hrun ▸ hkept, hrun ▸ hcomplete,
        fun r hc => absurd hc (hcreated r)⟩
      rw [hrun, hroot', hroot]

theorem changeFiles_spec {files : FileTree} (hallowed : (Event.op (.changeFiles files)).Allowed c) :
    (Event.op (.changeFiles files)).Spec c := by
  refine Event.spec_of_same h rfl rfl (fun root hr => ?_) fun _ hc => hc
  obtain ⟨hfind, hnodes⟩ := hallowed root hr
  have hnode : ∀ repo, files.node? (fileOf root repo) = c.files.node? (fileOf root repo) :=
    fun repo => hnodes _ (List.prefix_append ..)
  have hondisk := h.onDisk root hr
  refine ⟨hfind.trans hondisk.found, fun repo db hdb => ?_, fun repo n hn => ?_⟩
  · obtain ⟨s, hs, hfile⟩ := hondisk.filed repo db hdb
    exact ⟨s, hs, (hnode repo).trans hfile⟩
  · exact hondisk.owned repo n ((hnode repo).symm.trans hn)

/-- What one event does. -/
theorem Event.spec {e : Event} (hallowed : e.Allowed c) : e.Spec c := by
  cases e with
  | query _ _ _ | dump _ =>
      exact Event.spec_of_same h rfl rfl (fun root hr => h.onDisk root hr) fun _ hc => hc
  | reopen => exact reopen_spec h hallowed
  | op o =>
      cases o with
      | register source => exact withLive_spec h (register_eval c source) fun _ hc => hc
      | reload dir => exact withLive_spec h (reload_eval c dir) fun _ hc => hc
      | create name hash => exact create_spec h hallowed name hash
      | ingest repo files =>
          exact Event.spec_of_moves h hallowed (ingest_moving repo files c) fun _ hc => hc.elim
      | ingestPaths repo paths =>
          exact Event.spec_of_moves h hallowed (ingestPaths_moving repo paths c)
            fun _ hc => hc.elim
      | finalize repo => exact finalize_spec h hallowed repo
      | abandon repo => exact abandon_spec h repo
      | load repo paths => exact load_spec h hallowed repo paths
      | changeFiles files => exact changeFiles_spec h hallowed

end Steps

/-! ## Runs -/

/-- A catalog with which a run can begin: an empty one in memory, or one on disk, whatever is
there when the directory is opened. -/
def Starts (c : Catalog) : Prop :=
  ∃ files live, c = inMemory files live ∨
    ∃ path, (openDirectory path).eval (inMemory files live) = (.ok (), c)

theorem Starts.sound (h : c.Starts) : c.Sound := by
  obtain ⟨files, live, rfl | ⟨path, hopen⟩⟩ := h
  · exact ⟨fun _ _ hdb => (by cases hdb), fun _ hr => (by cases hr)⟩
  · exact (sound_openDirectory hopen).1

/-- All databases are kept along a run. -/
theorem later_spec (h : c.Sound) {events : List Event} (hallowed : c.RunAllowed events) :
    (c.later events).Sound ∧ (c.later events).root = c.root ∧ c.Kept (c.later events) := by
  induction events generalizing c with
  | nil => exact ⟨h, rfl, .refl c⟩
  | cons e events ih =>
      obtain ⟨he, hevents⟩ := hallowed
      have hspec := Event.spec h he
      obtain ⟨hsound, hroot, hkept⟩ := ih hspec.sound hevents
      exact ⟨hsound, hroot.trans hspec.root, hspec.kept.trans hkept⟩

theorem runAllowed_append {events more : List Event} :
    c.RunAllowed (events ++ more) ↔ c.RunAllowed events ∧ (c.later events).RunAllowed more := by
  induction events generalizing c with
  | nil => simp [RunAllowed, later]
  | cons e events ih => simp only [List.cons_append, RunAllowed, ih, and_assoc, later, List.foldl_cons]

/-- A directory that is opened where nothing is. -/
def emptyShelf : Catalog := ((openDirectory ⟨"db"⟩).eval (inMemory (.startingAt []) .builtin)).2

theorem emptyShelf_starts : emptyShelf.Starts := by
  have hopen : ((openDirectory ⟨"db"⟩).eval (inMemory (.startingAt []) .builtin)).1 = .ok () := rfl
  exact ⟨.startingAt [], .builtin, .inr ⟨⟨"db"⟩, Prod.ext hopen rfl⟩⟩

/-- Around any event of a run, and up to any later point of it: the state of a database changes
only from building; a database that is complete is the same later and answers stored-mode
queries as before; one gets complete only where it is finalized or loaded; and none is created
that was there. -/
theorem lifecycle (start : Catalog) (hstart : start.Starts) (before : List Event) (e : Event)
    (after : List Event) (hallowed : start.RunAllowed (before ++ e :: after)) :
    (∀ repo db, (start.later before).database repo = .ok db →
      ∃ next, ((start.later before).later (e :: after)).database repo = .ok next ∧
        (next.state = db.state ∨ db.state = .building)) ∧
    (∀ repo db, (start.later before).database repo = .ok db → db.state = .complete →
      ((start.later before).later (e :: after)).database repo = .ok db ∧
        ∀ text o, o.mode = .stored → ((start.later before).later (e :: after)).query repo text o =
          (start.later before).query repo text o) ∧
    (∀ repo db, (e.run (start.later before)).database repo = .ok db → db.state = .complete →
      (start.later before).database repo = .ok db ∨ e.Seals (start.later before) repo) ∧
    (∀ repo, e.Creates (start.later before) repo →
      (start.later before).database repo = .error (.unknownDatabase repo) ∧
        ∃ db, (e.run (start.later before)).database repo = .ok db) := by
  obtain ⟨hbefore, hafter⟩ := runAllowed_append.mp hallowed
  obtain ⟨hsound, -, -⟩ := later_spec hstart.sound hbefore
  have hspec := Event.spec hsound hafter.1
  obtain ⟨-, -, hkept⟩ := later_spec hsound hafter
  refine ⟨fun repo db hdb => ?_, fun repo db hdb hcomplete => ?_, fun repo db hdb hcomplete => ?_,
    fun repo hc => ?_⟩
  · obtain ⟨next, hnext, hleads⟩ := hkept repo db (database_ok_iff.mp hdb)
    refine ⟨next, database_ok_iff.mpr hnext, ?_⟩
    by_cases hstate : db.state = .building
    · exact .inr hstate
    · exact .inl (hleads.state hstate)
  · obtain ⟨next, hnext, hleads⟩ := hkept repo db (database_ok_iff.mp hdb)
    obtain rfl := hleads.eq_of_complete hcomplete
    have hnow := database_ok_iff.mpr hnext
    refine ⟨hnow, fun text o hmode => ?_⟩
    unfold Catalog.query Catalog.compile Catalog.schema
    rw [hnow, hdb, hmode]
  · exact (hspec.complete repo db (database_ok_iff.mp hdb) hcomplete).imp_left database_ok_iff.mpr
  · obtain ⟨hnew, db, hdb⟩ := hspec.created repo hc
    refine ⟨?_, db, database_ok_iff.mpr hdb⟩
    unfold Catalog.database
    rw [hnew]

/-- A build that is sealed, and the operations after that fail. -/
def sealedBuild : List Event :=
  [.op (.register "schema a.1 \x7b predicate P : string \x7d"), .op (.create "d" none),
    .op (.ingest ⟨"d", "0"⟩ [⟨"f", [⟨"a.P", [⟨none, .string "x", none⟩]⟩]⟩]),
    .op (.finalize ⟨"d", "0"⟩)]

def afterSealing : List Event :=
  [.op (.register "schema a.2 \x7b predicate P : nat \x7d"), .op (.create "d" (some "0")),
    .op (.ingest ⟨"d", "0"⟩ [⟨"g", [⟨"a.P", [⟨none, .nat 1, none⟩]⟩]⟩]), .op (.abandon ⟨"d", "0"⟩),
    .reopen]

theorem lifecycle_sealedBuild :
    ∃ db, (emptyShelf.later sealedBuild).database ⟨"d", "0"⟩ = .ok db ∧ db.state = .complete ∧
      ((emptyShelf.later sealedBuild).later (.reopen :: afterSealing)).database ⟨"d", "0"⟩ = .ok db := by
  have hallowed : emptyShelf.RunAllowed (sealedBuild ++ .reopen :: afterSealing) := by
    refine ⟨trivial, ?_, ?_, ?_, ?_, trivial, ?_, ?_, trivial, ?_, trivial⟩ <;>
      unfold Event.Allowed <;> decide +kernel
  have hdb : ((emptyShelf.later sealedBuild).database ⟨"d", "0"⟩).toOption.any fun db =>
      db.state = .complete := by
    decide +kernel
  obtain ⟨db, hdb, hcomplete⟩ := (Option.any_eq_true ..).mp hdb
  have hdb := Outcome.mem_toOption_iff.mp hdb
  obtain ⟨-, hsame, -, -⟩ :=
    lifecycle emptyShelf emptyShelf_starts sealedBuild .reopen afterSealing hallowed
  have hcomplete : db.state = .complete := by simpa using hcomplete
  exact ⟨db, hdb, hcomplete, (hsame _ db hdb hcomplete).1⟩

end Catalog

end Factbase
