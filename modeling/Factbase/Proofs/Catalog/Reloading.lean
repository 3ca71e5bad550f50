import Factbase.Proofs.Catalog.Filling

/-!
# Builds under a changing schema

The live schema may be another one each time that a building database
follows it. Following compares the predicates that have facts, and these
are found in the statistics; so first of all the statistics list the
predicates with facts, in every store that comes up (`FactIndex.Tallied`).

What is compared are the types. Along every run the facts that a database
has keep the types they were stored under (`Catalog.later_keepsTypes`), and
a schema that changes them is refused when a file is added or the database
is sealed (`Catalog.build_keeps_types`). Whether a predicate is stored or
derived is not compared (`Catalog.exists_derived_with_facts`).
-/

namespace Factbase

/-! ## Predicates with facts -/

namespace FactIndex

/-- The statistics list the predicates that have facts. -/
def Tallied (i : FactIndex) : Prop := ∀ p, p ∈ i.stats.tallies.keys ↔ i.scan p ≠ []

theorem tallied_empty : Tallied .empty := by
  intro p
  simp [empty, Statistics.empty, scan, SortedMap.mem_keys_iff]

theorem scan_add (i : FactIndex) (d : Digest) (f : Fact) (p : Predicate) :
    (i.add d f).scan p = if p = f.predicate then i.scan p ++ [f.id] else i.scan p := by
  unfold scan add
  rw [SortedMap.get?_update]
  split
  · rename_i h
    subst h
    rfl
  · rfl

theorem Tallied.add {i : FactIndex} (h : i.Tallied) (d : Digest) (f : Fact) : (i.add d f).Tallied := by
  intro p
  have hkeys : p ∈ (i.add d f).stats.tallies.keys ↔
      p = f.predicate ∨ p ∈ i.stats.tallies.keys := by
    unfold FactIndex.add Statistics.record
    rw [SortedMap.mem_keys_iff, SortedMap.mem_keys_iff, SortedMap.get?_update]
    split <;> simp [*]
  rw [hkeys, scan_add, h p]
  split <;> simp [*]

theorem Tallied.addAll {i : FactIndex} (h : i.Tallied) (facts : List (Digest × Fact)) :
    (i.addAll facts).Tallied := by
  induction facts generalizing i with
  | nil => exact h
  | cons e facts ih => exact ih (h.add e.1 e.2)

/-- Predicates get facts only where facts of them are added. -/
theorem scan_addAll_cases {i : FactIndex} {p : Predicate} {facts : List (Digest × Fact)}
    (h : (i.addAll facts).scan p ≠ []) : i.scan p ≠ [] ∨ ∃ e ∈ facts, e.2.predicate = p := by
  induction facts generalizing i with
  | nil => exact .inl h
  | cons e facts ih =>
      rcases ih h with hold | ⟨e', he', hp⟩
      · rw [scan_add] at hold
        split at hold
        · rename_i heq
          exact .inr ⟨e, List.mem_cons_self .., heq.symm⟩
        · exact .inl hold
      · exact .inr ⟨e', List.mem_cons_of_mem _ he', hp⟩

theorem scan_addAll {i : FactIndex} {p : Predicate} (h : i.scan p ≠ []) (facts : List (Digest × Fact)) :
    (i.addAll facts).scan p ≠ [] := by
  induction facts generalizing i with
  | nil => exact h
  | cons e facts ih =>
      refine ih ?_
      rw [scan_add]
      split <;> simp [h]

end FactIndex

namespace Store

variable {s t : Store} {p : Predicate}

/-- There are facts of a predicate. -/
def HasFacts (s : Store) (p : Predicate) : Prop := FactStore.scan s p ≠ []

instance (s : Store) (p : Predicate) : Decidable (s.HasFacts p) := inferInstanceAs (Decidable (_ ≠ _))

/-- The index that a store of either kind keeps. -/
def index : Store → FactIndex
  | .memory s => s.index
  | .disk s => s.index

theorem hasFacts_iff : s.HasFacts p ↔ s.index.scan p ≠ [] := by
  cases s <;> exact Iff.rfl

theorem statistics_eq (s : Store) : FactStore.statistics s = s.index.stats := by
  cases s <;> rfl

theorem index_setState (s : Store) (state : StoreState) :
    (FactStore.setState s state).index = s.index := by
  cases s <;> rfl

theorem index_saveSchema (s : Store) (bytes : Bytes) :
    (FactStore.saveSchema s bytes).index = s.index := by
  cases s <;> rfl

theorem index_commit {b : FactBatch} (h : FactStore.commit s b = .ok t) :
    ∃ facts, facts ⊆ b.staged ∧ t.index = s.index.addAll facts := by
  cases s with
  | memory s =>
      obtain ⟨s', hs', rfl⟩ := Outcome.map_ok_iff.mp h
      obtain ⟨-, -, hout⟩ := Outcome.bind_ok_iff.mp hs'
      cases hout
      exact ⟨b.staged, List.Subset.refl _, rfl⟩
  | disk s =>
      obtain ⟨s', hs', rfl⟩ := Outcome.map_ok_iff.mp h
      obtain ⟨-, -, hout⟩ := Outcome.bind_ok_iff.mp hs'
      split at hout
      · cases hout
        exact ⟨[], List.nil_subset _, rfl⟩
      · cases hout
        exact ⟨b.staged, List.Subset.refl _, rfl⟩

theorem tallied_ofTables {tables : Tables} {s : DiskStore} (h : DiskStore.ofTables tables = .ok s) :
    (Store.disk s).index.Tallied := by
  obtain ⟨facts, -, hout⟩ := Outcome.bind_ok_iff.mp h
  cases hout
  exact FactIndex.tallied_empty.addAll facts

theorem tallied_commit {b : FactBatch} (h : s.index.Tallied) (hcommit : FactStore.commit s b = .ok t) :
    t.index.Tallied := by
  obtain ⟨facts, -, hindex⟩ := index_commit hcommit
  rw [hindex]
  exact h.addAll facts

theorem HasFacts.commit {b : FactBatch} (h : s.HasFacts p) (hcommit : FactStore.commit s b = .ok t) :
    t.HasFacts p := by
  obtain ⟨facts, -, hindex⟩ := index_commit hcommit
  rw [hasFacts_iff, hindex]
  exact FactIndex.scan_addAll (hasFacts_iff.mp h) facts

/-- A commit gives facts to the predicates of the batch only. -/
theorem HasFacts.of_commit {b : FactBatch} (h : t.HasFacts p) (hcommit : FactStore.commit s b = .ok t) :
    s.HasFacts p ∨ ∃ f ∈ b.facts, f.predicate = p := by
  obtain ⟨facts, hstaged, hindex⟩ := index_commit hcommit
  rw [hasFacts_iff, hindex] at h
  rcases FactIndex.scan_addAll_cases h with hold | ⟨e, he, hp⟩
  · exact .inl (hasFacts_iff.mpr hold)
  · exact .inr ⟨e.2, List.mem_map_of_mem (hstaged he), hp⟩

end Store

/-! ## Definitions of the same types -/

/-- Two schemas define a predicate, and by the same types. -/
def Schema.SameTypes (old new : Schema) (p : Predicate) : Prop :=
  ∃ d e, old.get? p = some d ∧ new.get? p = some e ∧ e.key = d.key ∧ e.value = d.value

namespace Database

variable {db next last : Database} {live : Schema} {p : Predicate}

theorem sameTypes_iff {old new : Schema} : sameTypes old new p = true ↔ old.SameTypes new p := by
  unfold sameTypes Schema.SameTypes
  cases old.get? p with
  | none => simp
  | some d =>
      cases new.get? p with
      | none => simp
      | some e =>
          simp only [Bool.and_eq_true, decide_eq_true_eq, Option.some.injEq]
          constructor
          · rintro ⟨hkey, hvalue⟩
            exact ⟨d, e, rfl, rfl, hkey.symm, hvalue.symm⟩
          · rintro ⟨_, _, rfl, rfl, hkey, hvalue⟩
            exact ⟨hkey.symm, hvalue.symm⟩

/-- A schema has the types of all predicates with facts that a database has. -/
def Suits (db : Database) (live : Schema) : Prop :=
  ∀ p, db.store.HasFacts p → db.stored.SameTypes live p

/-- A schema does not have the types of a predicate with facts. -/
def Retypes (db : Database) (live : Schema) (p : Predicate) : Prop :=
  db.store.HasFacts p ∧ ¬ db.stored.SameTypes live p

/-- A database follows a schema that suits it, and the error is about a predicate that has
facts otherwise. -/
theorem follow_cases (h : db.store.index.Tallied) (live : Schema) :
    db.Suits live ∧ db.follow live = .ok { db with stored := live } ∨
      ∃ p, db.Retypes live p ∧ db.follow live = .error (.type (.definitionChanged p db.repo)) := by
  unfold Database.follow
  rw [Store.statistics_eq]
  split
  · rename_i p hfind
    have hp : p ∈ db.store.index.stats.tallies.keys := List.mem_of_find?_eq_some hfind
    have hchanged : ¬ sameTypes db.stored live p = true := by
      simpa using List.find?_some hfind
    exact .inr ⟨p, ⟨Store.hasFacts_iff.mpr ((h p).mp hp), mt sameTypes_iff.mpr hchanged⟩, rfl⟩
  · rename_i hfind
    refine .inl ⟨fun p hp => sameTypes_iff.mp ?_, rfl⟩
    simpa using List.find?_eq_none.mp hfind p ((h p).mpr (Store.hasFacts_iff.mp hp))

/-- Adding a file to a building database is refused by a predicate with facts of other types,
and takes the schema over otherwise, also where the file fails. -/
theorem ingest_follow_cases (h : db.store.index.Tallied) (hbuilding : db.state = .building)
    (live : Schema) (f : FactFile) :
    db.Suits live ∧ (db.ingest live f).1.stored = live ∨
      ∃ p, db.Retypes live p ∧ db.ingest live f =
        (db.setState .incomplete, .error (.type (.definitionChanged p db.repo))) := by
  unfold Database.ingest
  rw [check_of_building hbuilding]
  dsimp only
  rcases follow_cases h live with ⟨hsuits, hfollow⟩ | ⟨p, hp, hfollow⟩
  · refine .inl ⟨hsuits, ?_⟩
    rw [hfollow]
    dsimp only
    cases hfill : ({ db with stored := live } : Database).addFile f with
    | error e => rfl
    | ok filled =>
        unfold Database.addFile at hfill
        obtain ⟨b, -, hrest⟩ := Outcome.bind_ok_iff.mp hfill
        obtain ⟨t, -, hout⟩ := Outcome.bind_ok_iff.mp hrest
        cases hout
        rfl
  · refine .inr ⟨p, hp, ?_⟩
    rw [hfollow]

/-- Sealing a building database is refused in the same way. -/
theorem finalize_follow_cases (h : db.store.index.Tallied) (hbuilding : db.state = .building)
    (live : Schema) :
    db.Suits live ∧ (∃ done, db.finalize live = .ok done) ∨
      ∃ p, db.Retypes live p ∧
        db.finalize live = .error (.type (.definitionChanged p db.repo)) := by
  unfold Database.finalize
  rw [check_of_building hbuilding]
  rcases follow_cases h live with ⟨hsuits, hfollow⟩ | ⟨p, hp, hfollow⟩
  · rw [hfollow]
    exact .inl ⟨hsuits, _, rfl⟩
  · rw [hfollow]
    exact .inr ⟨p, hp, rfl⟩

/-! ## What becomes of the types -/

/-- The predicates with facts still have facts, and types that were defined are the same. -/
def KeepsTypes (db next : Database) : Prop :=
  ∀ p, db.store.HasFacts p → next.store.HasFacts p ∧
    ∀ d, db.stored.get? p = some d →
      ∃ e, next.stored.get? p = some e ∧ e.key = d.key ∧ e.value = d.value

namespace KeepsTypes

theorem refl (db : Database) : db.KeepsTypes db :=
  fun _ hp => ⟨hp, fun d hd => ⟨d, hd, rfl, rfl⟩⟩

theorem trans (h : db.KeepsTypes next) (h' : next.KeepsTypes last) : db.KeepsTypes last := by
  intro p hp
  obtain ⟨hnext, hdefined⟩ := h p hp
  obtain ⟨hlast, hdefined'⟩ := h' p hnext
  refine ⟨hlast, fun d hd => ?_⟩
  obtain ⟨e, he, hkey, hvalue⟩ := hdefined d hd
  obtain ⟨e', he', hkey', hvalue'⟩ := hdefined' e he
  exact ⟨e', he', hkey'.trans hkey, hvalue'.trans hvalue⟩

/-- A database that has a schema that suits it, or the one it had. -/
theorem of_stored (hfacts : ∀ p, db.store.HasFacts p → next.store.HasFacts p)
    (hstored : next.stored = db.stored ∨ db.Suits next.stored) : db.KeepsTypes next := by
  intro p hp
  refine ⟨hfacts p hp, fun d hd => ?_⟩
  rcases hstored with hsame | hsuits
  · exact ⟨d, hsame ▸ hd, rfl, rfl⟩
  · obtain ⟨d', e, hd', he, htypes⟩ := hsuits p hp
    cases hd.symm.trans hd'
    exact ⟨e, he, htypes⟩

end KeepsTypes

theorem keepsTypes_setState (db : Database) (state : StoreState) :
    db.KeepsTypes (db.setState state) := by
  refine .of_stored (fun p hp => ?_) (.inl rfl)
  rw [Store.hasFacts_iff] at hp ⊢
  exact (Store.index_setState db.store state).symm ▸ hp

theorem tallied_create {store : Store} (h : store.index.Tallied) (repo : Repo) (live : Schema) :
    (Database.create repo store live).store.index.Tallied := by
  unfold Database.create
  rw [Store.index_setState, Store.index_saveSchema]
  exact h

/-- What adding a file does to the statistics and to the types. -/
theorem ingest_keepsTypes (h : db.store.index.Tallied) (live : Schema) (f : FactFile) :
    (db.ingest live f).1.store.index.Tallied ∧ db.KeepsTypes (db.ingest live f).1 := by
  rcases db.ingest_cases live f with ⟨-, e, heq⟩ | ⟨hbuilding, hcases⟩
  · rw [heq]
    exact ⟨h, .refl db⟩
  · have hfollow := ingest_follow_cases h hbuilding live f
    rcases hcases with ⟨stored, e, heq⟩ | ⟨b, t, -, ht, heq⟩
    · rw [heq] at hfollow ⊢
      refine ⟨(Store.index_setState db.store .incomplete).symm ▸ h, .of_stored (fun p hp => ?_) ?_⟩
      · exact ((keepsTypes_setState db .incomplete) p hp).1
      · rcases hfollow with ⟨hsuits, hlive⟩ | ⟨p, -, hrefused⟩
        · exact .inr (hlive.symm ▸ hsuits)
        · exact .inl (congrArg (·.1.stored) hrefused)
    · rw [heq] at hfollow ⊢
      refine ⟨Store.tallied_commit h ht, .of_stored (fun p hp => hp.commit ht) (.inr ?_)⟩
      rcases hfollow with ⟨hsuits, -⟩ | ⟨p, -, hrefused⟩
      · exact hsuits
      · cases congrArg Prod.snd hrefused

/-- What sealing does to the statistics and to the types. -/
theorem finalize_keepsTypes (h : db.store.index.Tallied) {done : Database}
    (hdone : db.finalize live = .ok done) : done.store.index.Tallied ∧ db.KeepsTypes done := by
  obtain ⟨hbuilding, heq⟩ := finalize_eq hdone
  have hindex : done.store.index = db.store.index := by
    rw [heq, Store.index_setState, Store.index_saveSchema]
  refine ⟨hindex.symm ▸ h, .of_stored (fun p hp => ?_) (.inr ?_)⟩
  · rw [Store.hasFacts_iff] at hp ⊢
    exact hindex.symm ▸ hp
  · rcases finalize_follow_cases h hbuilding live with ⟨hsuits, -⟩ | ⟨p, -, hrefused⟩
    · rw [heq]
      exact hsuits
    · rw [hdone] at hrefused
      cases hrefused

/-- A database that has the live schema keeps it. -/
theorem ingest_stored (h : db.store.index.Tallied) (hlive : db.stored = live) (f : FactFile) :
    (db.ingest live f).1.stored = live := by
  rcases db.ingest_cases live f with ⟨-, e, heq⟩ | ⟨hbuilding, -⟩
  · rw [heq]
    exact hlive
  · rcases ingest_follow_cases h hbuilding live f with ⟨-, hlive'⟩ | ⟨p, -, hrefused⟩
    · exact hlive'
    · rw [hrefused]
      exact hlive

theorem ingestAll_stored (h : db.store.index.Tallied) (hlive : db.stored = live)
    (files : List FactFile) : (db.ingestAll live files).1.stored = live := by
  induction files generalizing db with
  | nil => exact hlive
  | cons f files ih =>
      have hstored := ingest_stored h hlive f
      have htallied := (ingest_keepsTypes h live f).1
      cases hingest : db.ingest live f with
      | mk next r =>
          rw [hingest] at hstored htallied
          cases r with
          | error e => rwa [ingestAll_cons_error hingest]
          | ok n =>
              rw [ingestAll_cons_ok hingest]
              exact ih htallied hstored

/-- Adding files is refused by a predicate with facts of other types before anything is added,
and takes the schema over otherwise. -/
theorem ingestAll_follow_cases (h : db.store.index.Tallied) (hbuilding : db.state = .building)
    (live : Schema) (f : FactFile) (files : List FactFile) :
    db.Suits live ∧ (db.ingestAll live (f :: files)).1.stored = live ∨
      ∃ p, db.Retypes live p ∧ db.ingestAll live (f :: files) =
        (db.setState .incomplete, .error (.type (.definitionChanged p db.repo))) := by
  have htallied := (ingest_keepsTypes h live f).1
  rcases ingest_follow_cases h hbuilding live f with ⟨hsuits, hlive⟩ | ⟨p, hp, hrefused⟩
  · refine .inl ⟨hsuits, ?_⟩
    cases hingest : db.ingest live f with
    | mk next r =>
        rw [hingest] at hlive htallied
        cases r with
        | error e => rwa [ingestAll_cons_error hingest]
        | ok n =>
            rw [ingestAll_cons_ok hingest]
            exact ingestAll_stored htallied hlive files
  · exact .inr ⟨p, hp, ingestAll_cons_error hrefused files⟩

theorem ingestAll_repo (db : Database) (live : Schema) (files : List FactFile) :
    (db.ingestAll live files).1.repo = db.repo := by
  induction files generalizing db with
  | nil => rfl
  | cons f files ih =>
      have hrepo := db.ingest_repo live f
      cases hingest : db.ingest live f with
      | mk next r =>
          rw [hingest] at hrepo
          cases r with
          | error e =>
              rw [ingestAll_cons_error hingest]
              exact hrepo
          | ok n =>
              rw [ingestAll_cons_ok hingest]
              exact (ih next).trans hrepo

end Database

/-! ## Catalogs -/

namespace Catalog

open Action

variable {c c' c'' : Catalog} {repo : Repo} {db : Database}

/-- Databases are kept under their identities, and their statistics list the predicates with
facts. -/
structure Regular (c : Catalog) : Prop where
  named : ∀ repo db, c.databases.get? repo = some db → db.repo = repo
  tallied : ∀ repo db, c.databases.get? repo = some db → db.store.index.Tallied

/-- Every database is still there, and keeps the types of its facts. -/
def KeepsTypes (c c' : Catalog) : Prop :=
  ∀ repo db, c.databases.get? repo = some db →
    ∃ next, c'.databases.get? repo = some next ∧ db.KeepsTypes next

theorem Regular.congr (h : c.Regular) (hsame : c'.databases = c.databases) : c'.Regular where
  named repo db hdb := h.named repo db (hsame ▸ hdb)
  tallied repo db hdb := h.tallied repo db (hsame ▸ hdb)

theorem KeepsTypes.of_same (hsame : c'.databases = c.databases) : c.KeepsTypes c' :=
  fun _ db hdb => ⟨db, hsame ▸ hdb, .refl db⟩

theorem KeepsTypes.trans (h : c.KeepsTypes c') (h' : c'.KeepsTypes c'') : c.KeepsTypes c'' := by
  intro repo db hdb
  obtain ⟨next, hnext, hkeeps⟩ := h repo db hdb
  obtain ⟨last, hlast, hkeeps'⟩ := h' repo next hnext
  exact ⟨last, hlast, hkeeps.trans hkeeps'⟩

theorem Regular.put (h : c.Regular) (hdb : db.store.index.Tallied) : (c.put db).Regular where
  named repo db' hdb' := by
    rw [get?_put] at hdb'
    split at hdb'
    · rename_i heq
      cases hdb'
      exact heq.symm
    · exact h.named repo db' hdb'
  tallied repo db' hdb' := by
    rw [get?_put] at hdb'
    split at hdb'
    · cases hdb'
      exact hdb
    · exact h.tallied repo db' hdb'

theorem keepsTypes_put (h : c.Regular) (hdb : c.databases.get? repo = some db) {next : Database}
    (hrepo : next.repo = db.repo) (hkeeps : db.KeepsTypes next) : c.KeepsTypes (c.put next) := by
  intro repo' db' hdb'
  rw [get?_put]
  split
  · rename_i heq
    rw [hrepo, h.named repo db hdb] at heq
    subst heq
    cases hdb.symm.trans hdb'
    exact ⟨next, rfl, hkeeps⟩
  · exact ⟨db', hdb', .refl db'⟩

theorem keepsTypes_new {new : Database} (hnew : c.databases.get? new.repo = none) :
    c.KeepsTypes (c.put new) := by
  intro repo db hdb
  rw [get?_put]
  split
  · rename_i heq
    subst heq
    rw [hnew] at hdb
    cases hdb
  · exact ⟨db, hdb, .refl db⟩

/-! ### Opening stores -/

section Opening

variable {P : Catalog → Prop} (hfiles : ∀ c files, P c → P { c with files })

theorem Action.Leaves.mapM {α β : Type} {Q : β → Prop} {x : α → Action β}
    (hx : ∀ a c, P c → Leaves P Q (x a) c) (as : List α) (hc : P c) :
    Leaves P (fun bs => ∀ b ∈ bs, Q b) (as.mapM x) c := by
  induction as generalizing c with
  | nil => exact .pure hc (by simp)
  | cons a as ih =>
      rw [List.mapM_cons]
      refine .bind (hx a c hc) fun b c' hc' hb => ?_
      refine .bind (ih hc') fun bs c' hc' hbs => .pure hc' ?_
      exact List.forall_mem_cons.mpr ⟨hb, hbs⟩

include hfiles

/-- Opening a store changes nothing but files. -/
theorem openStore_leaves (hc : P c) (root : CatalogRoot) (repo : Repo) :
    Leaves P (fun s => s.index.Tallied) (openStore root repo) c := by
  cases hopen : openFile c.files (fileOf root repo) with
  | error e =>
      rw [Leaves, openStore_refused hopen]
      exact ⟨hc, fun _ h => by cases h⟩
  | ok r =>
      obtain ⟨files, tables⟩ := r
      rw [Leaves, openStore_eval hopen]
      refine ⟨hfiles c files hc, fun s hs => ?_⟩
      have hs : (DiskStore.ofTables tables).map Store.disk = .ok s := hs
      cases htables : DiskStore.ofTables tables with
      | error e =>
          rw [htables] at hs
          cases hs
      | ok d =>
          rw [htables] at hs
          cases hs
          exact Store.tallied_ofTables htables

/-- Making a store changes nothing but files. -/
theorem newStore_tallied (hc : P c) (repo : Repo) :
    Leaves P (fun s => s.index.Tallied) (newStore repo) c := by
  unfold newStore
  refine .bind (.get hc) fun c₁ c' hc' hc₁ => ?_
  subst hc₁
  split
  · exact .pure hc' FactIndex.tallied_empty
  · rename_i root hroot
    dsimp only
    refine .bind (.set (hfiles _ _ hc)) fun _ c' hc' _ => ?_
    refine .bind (Q := fun _ => True) (.lift hc' fun _ _ => trivial) fun _ c' hc' _ => ?_
    exact openStore_leaves hfiles hc' root repo

/-- Attaching a database changes nothing but files. -/
theorem attach_leaves (hc : P c) (root : CatalogRoot) (repo : Repo) :
    Leaves P (fun db => db.store.index.Tallied) (attach root repo) c := by
  unfold attach
  refine .bind (openStore_leaves hfiles hc root repo) fun s c' hc' hs => ?_
  refine .bind (.lift hc' fun db hdb => ?_) fun db c' hc' hdb =>
    .bind (.modify (hfiles _ _ hc')) fun _ c' hc' _ => .pure hc' hdb
  obtain ⟨bytes, schema, hload, hread⟩ := Database.reopen_ok hdb
  rw [Database.reopen_eq hload hread] at hdb
  cases hdb
  split
  · exact (Store.index_setState s .incomplete).symm ▸ hs
  · exact hs

end Opening

/-- Opening a directory leaves a regular catalog behind, also where it fails. -/
theorem openDirectory_leaves (c : Catalog) (path : Path) :
    Leaves Regular (fun _ => True) (openDirectory path) c := by
  have hfiles : ∀ c files, Regular c → Regular { c with files } := fun _ _ h => h.congr rfl
  have hempty : ∀ files (c : Catalog), Regular { c with files, root := none, databases := ∅ } :=
    fun _ _ => ⟨fun _ _ hdb => (by cases hdb), fun _ _ hdb => (by cases hdb)⟩
  unfold openDirectory
  rw [Leaves, eval_bind, eval_get]
  dsimp only
  refine Leaves.bind (Q := fun _ => True) ⟨hempty _ c, fun _ _ => trivial⟩ fun _ c' hc' _ => ?_
  refine .bind (Q := fun _ => True) (.lift hc' fun _ _ => trivial) fun _ c' hc' _ => ?_
  refine .bind (Q := fun _ => True) (.lift hc' fun _ _ => trivial) fun found c' hc' _ => ?_
  refine .bind (.mapM (fun repo c hc => attach_leaves hfiles hc _ repo) _ hc') fun dbs c' hc' hdbs => ?_
  refine .modify ⟨fun repo db hdb => (get?_ofList hdb).2,
    fun repo db hdb => hdbs db (get?_ofList hdb).1⟩

/-! ### One event -/

theorem Move.regular (hmove : Move c c') (h : c.Regular) : c'.Regular ∧ c.KeepsTypes c' := by
  cases hmove with
  | @fill repo db f hdb =>
      obtain ⟨htallied, hkeeps⟩ := Database.ingest_keepsTypes (h.tallied repo db hdb) c.live f
      exact ⟨h.put htallied, keepsTypes_put h hdb (db.ingest_repo c.live f) hkeeps⟩
  | @giveUp repo db hdb hbuilding =>
      refine ⟨h.put ?_, keepsTypes_put h hdb rfl (db.keepsTypes_setState .incomplete)⟩
      exact (Store.index_setState db.store .incomplete).symm ▸ h.tallied repo db hdb
  | @refuse repo e c' hnew heval =>
      have hsame := (newStore_tallied (P := (·.databases = c.databases)) (fun _ _ h => h) rfl repo).1
      rw [heval] at hsame
      exact ⟨h.congr hsame, .of_same hsame⟩
  | @create repo store c₁ hnew heval =>
      have hstore := newStore_tallied (P := (·.databases = c.databases)) (fun _ _ h => h) rfl repo
      rw [Leaves, heval] at hstore
      obtain ⟨hsame, htallied⟩ := hstore
      refine ⟨(h.congr hsame).put (Database.tallied_create (htallied store rfl) repo c.live), ?_⟩
      exact (KeepsTypes.of_same hsame).trans (keepsTypes_new (hsame ▸ hnew))

theorem Moves.regular (hmoves : Moves c c') (h : c.Regular) : c'.Regular ∧ c.KeepsTypes c' := by
  induction hmoves with
  | refl => exact ⟨h, .of_same rfl⟩
  | tail _ hmove ih =>
      obtain ⟨hregular, hkeeps⟩ := hmove.regular ih.1
      exact ⟨hregular, ih.2.trans hkeeps⟩

theorem Seals.regular (hseals : c.Seals repo c') (h : c.Regular) : c'.Regular ∧ c.KeepsTypes c' := by
  obtain ⟨db, done, hdb, hdone, rfl⟩ := hseals
  obtain ⟨htallied, hkeeps⟩ := Database.finalize_keepsTypes (h.tallied repo db hdb) hdone
  obtain ⟨-, heq⟩ := Database.finalize_eq hdone
  exact ⟨h.put htallied, keepsTypes_put h hdb (by rw [heq]) hkeeps⟩

theorem databases_withLive (c : Catalog) (r : Except Error Schema) :
    (c.withLive r).databases = c.databases := by
  cases r <;> rfl

/-- An event that is about the live schema, or about the files that it is read from. -/
def Event.Declares : Event → Prop
  | .op (.register _) | .op (.reload _) | .op (.changeFiles _) => True
  | _ => False

theorem Event.databases_of_declares {e : Event} (h : e.Declares) (c : Catalog) :
    (e.run c).databases = c.databases := by
  unfold Declares at h
  split at h
  · rw [run, Op.run, register_eval, databases_withLive]
  · rw [run, Op.run, reload_eval, databases_withLive]
  · rfl
  · exact h.elim

/-- Every event but reopening keeps the types of facts. -/
theorem Event.keepsTypes (h : c.Regular) {e : Event} (he : e ≠ .reopen) :
    (e.run c).Regular ∧ c.KeepsTypes (e.run c) := by
  have hsame : ∀ {c' : Catalog}, c'.databases = c.databases → c'.Regular ∧ c.KeepsTypes c' :=
    fun hsame => ⟨h.congr hsame, .of_same hsame⟩
  cases e with
  | reopen => exact absurd rfl he
  | query _ _ _ | dump _ => exact hsame rfl
  | op o =>
      cases o with
      | register source => exact hsame (databases_of_declares (e := .op (.register source)) trivial c)
      | reload dir => exact hsame (databases_of_declares (e := .op (.reload dir)) trivial c)
      | changeFiles files => exact hsame rfl
      | create name hash => exact (create_moving name hash c).regular h
      | ingest repo files => exact (ingest_moving repo files c).regular h
      | ingestPaths repo paths => exact (ingestPaths_moving repo paths c).regular h
      | finalize repo =>
          rcases finalize_cases c repo with ⟨e, heval⟩ | ⟨c', heval, hseals⟩
          · exact hsame (by rw [run, Op.run, heval])
          · rw [run, Op.run, heval]
            exact hseals.regular h
      | abandon repo =>
          rw [run, Op.run]
          rcases abandon_cases c repo with heval | ⟨db, hdb, hbuilding, heval⟩
          · exact hsame (by rw [heval])
          · rw [heval]
            exact (Move.giveUp hdb hbuilding).regular h
      | load repo paths =>
          rcases load_cases c repo paths with
            ⟨e, c', heval, hmoves⟩ | ⟨made, c₁, c', heval, hmoves, -, hseals⟩
          · rw [run, Op.run, heval]
            exact hmoves.regular h
          · rw [run, Op.run, heval]
            obtain ⟨hregular, hkeeps⟩ := hmoves.regular h
            obtain ⟨hregular', hkeeps'⟩ := hseals.regular hregular
            exact ⟨hregular', hkeeps.trans hkeeps'⟩

theorem Event.regular (h : c.Regular) (e : Event) : (e.run c).Regular := by
  by_cases he : e = .reopen
  · subst he
    rw [run]
    split
    · exact h
    · exact (openDirectory_leaves c _).1
  · exact (Event.keepsTypes h he).1

/-! ### Runs -/

theorem Starts.regular (h : c.Starts) : c.Regular := by
  obtain ⟨files, live, rfl | ⟨path, hopen⟩⟩ := h
  · exact ⟨fun _ _ hdb => (by cases hdb), fun _ _ hdb => (by cases hdb)⟩
  · have hleaves := (openDirectory_leaves (inMemory files live) path).1
    rwa [hopen] at hleaves

theorem Regular.later (h : c.Regular) (events : List Event) : (c.later events).Regular := by
  induction events generalizing c with
  | nil => exact h
  | cons e events ih => exact ih (Event.regular h e)

/-- The facts of all databases keep their types, until the catalog is opened again. -/
theorem later_keepsTypes (h : c.Regular) {events : List Event} (hevents : .reopen ∉ events) :
    c.KeepsTypes (c.later events) := by
  induction events generalizing c with
  | nil => exact .of_same rfl
  | cons e events ih =>
      obtain ⟨he, hevents⟩ := not_or.mp (List.mem_cons.not.mp hevents)
      obtain ⟨hregular, hkeeps⟩ := Event.keepsTypes h (Ne.symm he)
      exact hkeeps.trans (ih hregular hevents)

theorem databases_of_declares {events : List Event} (h : ∀ e ∈ events, e.Declares) (c : Catalog) :
    (c.later events).databases = c.databases := by
  induction events generalizing c with
  | nil => rfl
  | cons e events ih =>
      obtain ⟨he, hevents⟩ := List.forall_mem_cons.mp h
      exact (ih hevents (e.run c)).trans (Event.databases_of_declares he c)

/-- Adding at least one file to a database writes what comes of the database. -/
theorem ingest_cons_eval (h : c.Regular) (hdb : c.database repo = .ok db) (f : FactFile)
    (files : List FactFile) : (ingest repo (f :: files)).eval c =
      ((db.ingestAll c.live (f :: files)).2, c.put (db.ingestAll c.live (f :: files)).1) := by
  obtain rfl := h.named repo db (database_ok_iff.mp hdb)
  have hput : (c.put db).database db.repo = .ok db := by
    rw [database_ok_iff, get?_put, if_pos rfl]
  -- after the first file it does not matter whether the database was written before
  have hfirst : (ingestFile db.repo f).eval c = (ingestFile db.repo f).eval (c.put db) := by
    rw [ingestFile_eval, ingestFile_eval, hdb, hput]
    exact congrArg (Prod.mk _)
      (put_put c (db.ingest_repo c.live f) (db.ingest_sameKind c.live f)).symm
  have hfold := foldlM_ingestFile_eval c db (f :: files) 0
  rw [List.foldlM_cons, eval_bind, eval_bind, ← hfirst] at hfold
  unfold ingest
  rw [eval_bind, eval_get]
  dsimp only
  rw [eval_bind, eval_discard, eval_lift, hdb]
  dsimp only
  rw [List.foldlM_cons, eval_bind, eval_bind, hfold]
  cases (db.ingestAll c.live (f :: files)).2 with
  | error e => rfl
  | ok n => exact Prod.ext (congrArg Except.ok (Nat.zero_add n)) rfl

/-- While a database is being built the live schema may change in any way. Along every run the
facts keep the types that they were stored under. Sealing the database gives it the live schema
if that has the types of all predicates with facts, and fails for one of them and leaves
everything as it is otherwise; adding files takes the live schema over in the same cases, and
leaves the database incomplete and with the schema it had otherwise. -/
theorem build_keeps_types (start : Catalog) (hstart : start.Starts) (before changes : List Event)
    (hchanges : ∀ e ∈ changes, e.Declares) (c : Catalog)
    (hc : c = (start.later before).later changes) (repo : Repo) (db : Database)
    (hdb : (start.later before).database repo = .ok db) (hbuilding : db.state = .building) :
    c.database repo = .ok db ∧
    (∀ after, .reopen ∉ after →
      ∃ next, (c.later after).database repo = .ok next ∧ db.KeepsTypes next) ∧
    (db.Suits c.live ∧ (∃ c' next, (finalize repo).eval c = (.ok (), c') ∧
        c'.database repo = .ok next ∧ next.state = .complete ∧ next.stored = c.live) ∨
      ∃ p, db.Retypes c.live p ∧
        (finalize repo).eval c = (.error (.type (.definitionChanged p repo)), c)) ∧
    ∀ files ≠ [],
      db.Suits c.live ∧ (∃ r c' next, (ingest repo files).eval c = (r, c') ∧
        c'.database repo = .ok next ∧ next.stored = c.live) ∨
      ∃ p c' next, db.Retypes c.live p ∧
        (ingest repo files).eval c = (.error (.type (.definitionChanged p repo)), c') ∧
        c'.database repo = .ok next ∧ next.state = .incomplete ∧ next.stored = db.stored := by
  subst hc
  have hregular := (hstart.regular.later before).later changes
  have hsame := databases_of_declares hchanges (start.later before)
  have hget : ((start.later before).later changes).databases.get? repo = some db := by
    rw [hsame]
    exact database_ok_iff.mp hdb
  generalize (start.later before).later changes = c at hregular hget ⊢
  have htallied := hregular.tallied repo db hget
  obtain rfl := hregular.named repo db hget
  have hthere : c.database db.repo = .ok db := database_ok_iff.mpr hget
  refine ⟨hthere, fun after hafter => ?_, ?_, fun files hfiles => ?_⟩
  · obtain ⟨next, hnext, hkeeps⟩ := later_keepsTypes hregular hafter db.repo db hget
    exact ⟨next, database_ok_iff.mpr hnext, hkeeps⟩
  · rw [finalize_eval, hthere]
    rcases Database.finalize_follow_cases htallied hbuilding c.live with
      ⟨hsuits, done, hdone⟩ | ⟨p, hp, hrefused⟩
    · obtain ⟨-, heq⟩ := Database.finalize_eq hdone
      have hstate : done.state = .complete := by
        rw [heq]
        exact Database.state_setState { db with
          store := FactStore.saveSchema db.store c.live.toBytes } .complete
      refine .inl ⟨hsuits, c.put done, done, ?_, ?_, hstate, by rw [heq]⟩
      · dsimp only
        rw [hdone]
      · rw [database_ok_iff, get?_put, if_pos (by rw [heq])]
    · refine .inr ⟨p, hp, ?_⟩
      dsimp only
      rw [hrefused]
  · obtain ⟨f, files, rfl⟩ := List.exists_cons_of_ne_nil hfiles
    rw [ingest_cons_eval hregular hthere]
    have hwritten (next : Database) (hrepo : next.repo = db.repo) :
        (c.put next).database db.repo = .ok next := by
      rw [database_ok_iff, get?_put, if_pos hrepo.symm]
    rcases Database.ingestAll_follow_cases htallied hbuilding c.live f files with
      ⟨hsuits, hstored⟩ | ⟨p, hp, hrefused⟩
    · exact .inl ⟨hsuits, _, _, _, rfl, hwritten _ (Database.ingestAll_repo ..), hstored⟩
    · rw [hrefused]
      exact .inr ⟨p, _, _, hp, rfl, hwritten _ rfl, Database.state_setState .., rfl⟩

/-- A directory with one schema file. -/
def schemaFiles (text : String) : FileTree :=
  ((FileTree.startingAt []).put ["s"] .directory).put ["s", "a.angle"] (.file (Binary.textBytes text))

/-- A catalog beside a schema of one stored predicate. -/
def plainStart : Catalog :=
  inMemory (schemaFiles "schema a.1 \x7b predicate P : string \x7d") .builtin

/-- A build with one fact. -/
def plainBuild : List Event :=
  [.op (.reload ⟨"s"⟩), .op (.create "d" none),
    .op (.ingest ⟨"d", "0"⟩ [⟨"f", [⟨"a.P", [⟨none, .string "x", none⟩]⟩]⟩])]

/-- The schema file is changed and read again. -/
def reread (text : String) : List Event :=
  [.op (.changeFiles (schemaFiles text)), .op (.reload ⟨"s"⟩)]

theorem declares_reread (text : String) : ∀ e ∈ reread text, e.Declares := by
  simp [reread, Event.Declares]

/-- The predicate has another type. -/
def retypingText : String := "schema a.1 \x7b predicate P : nat \x7d"

theorem build_keeps_types_plainBuild :
    ∃ p, (finalize ⟨"d", "0"⟩).eval ((plainStart.later plainBuild).later (reread retypingText)) =
      (.error (.type (.definitionChanged p ⟨"d", "0"⟩)),
        (plainStart.later plainBuild).later (reread retypingText)) := by
  obtain ⟨hdb, hfails⟩ :
      (((plainStart.later plainBuild).database ⟨"d", "0"⟩).toOption.any fun db =>
        db.state = .building) ∧
      ((finalize ⟨"d", "0"⟩).eval ((plainStart.later plainBuild).later
        (reread retypingText))).1.toOption = none := by
    decide +kernel
  obtain ⟨db, hdb, hbuilding⟩ := (Option.any_eq_true ..).mp hdb
  obtain ⟨-, -, ⟨-, c', next, heval, -⟩ | ⟨p, -, heval⟩, -⟩ := build_keeps_types plainStart
    ⟨_, _, .inl rfl⟩ plainBuild _ (declares_reread retypingText) _ rfl ⟨"d", "0"⟩ db
    (Outcome.mem_toOption_iff.mp hdb) (by simpa using hbuilding)
  · rw [heval] at hfails
    cases hfails
  · exact ⟨p, heval⟩

/-- The predicate is derived, and has the types that it had. -/
def derivingText : String := "schema a.1 \x7b predicate P : string X where X = \"y\" \x7d"

/-- A predicate with facts may become a derived one: the types are the same, so the database is
sealed, and there is a fact of a predicate that no facts are stored of. -/
theorem exists_derived_with_facts :
    ∃ db d c next e, db.state = .building ∧ db.store.HasFacts ⟨"a.P", 1⟩ ∧
      ((plainStart.later plainBuild).later (reread derivingText)).database ⟨"d", "0"⟩ = .ok db ∧
      db.stored.get? ⟨"a.P", 1⟩ = some d ∧ d.isDerived = false ∧
      (finalize ⟨"d", "0"⟩).eval ((plainStart.later plainBuild).later (reread derivingText)) =
        (.ok (), c) ∧
      c.database ⟨"d", "0"⟩ = .ok next ∧ next.store.HasFacts ⟨"a.P", 1⟩ ∧
      next.stored.get? ⟨"a.P", 1⟩ = some e ∧ e.isDerived = true := by
  -- one evaluation, so that the run is gone through once
  obtain ⟨hbuild, hseal, hsealed⟩ :
      ((((plainStart.later plainBuild).later (reread derivingText)).database
        ⟨"d", "0"⟩).toOption.any fun db => db.state = .building ∧ db.store.HasFacts ⟨"a.P", 1⟩ ∧
          (db.stored.get? ⟨"a.P", 1⟩).any fun d => !d.isDerived) ∧
      ((finalize ⟨"d", "0"⟩).eval ((plainStart.later plainBuild).later
        (reread derivingText))).1.toOption.isSome ∧
      (((finalize ⟨"d", "0"⟩).eval ((plainStart.later plainBuild).later
        (reread derivingText))).2.database ⟨"d", "0"⟩).toOption.any fun db =>
          db.store.HasFacts ⟨"a.P", 1⟩ ∧ (db.stored.get? ⟨"a.P", 1⟩).any Definition.isDerived := by
    decide +kernel
  obtain ⟨db, hdb, hstate⟩ := (Option.any_eq_true ..).mp hbuild
  obtain ⟨next, hnext, hderived⟩ := (Option.any_eq_true ..).mp hsealed
  simp only [Bool.decide_and, Bool.and_eq_true, decide_eq_true_eq, Option.any_eq_true]
    at hstate hderived
  obtain ⟨hbuilding, hfacts, d, hd, hplain⟩ := hstate
  obtain ⟨hfacts', e, he, hder⟩ := hderived
  have hok : ((finalize ⟨"d", "0"⟩).eval ((plainStart.later plainBuild).later
      (reread derivingText))).1 = .ok () := by
    obtain ⟨⟨⟩, hu⟩ := Option.isSome_iff_exists.mp hseal
    exact Outcome.mem_toOption_iff.mp hu
  exact ⟨db, d, _, next, e, hbuilding, hfacts, Outcome.mem_toOption_iff.mp hdb, hd,
    by simpa using hplain, Prod.ext hok rfl, Outcome.mem_toOption_iff.mp hnext, hfacts', he, hder⟩

end Catalog

end Factbase
