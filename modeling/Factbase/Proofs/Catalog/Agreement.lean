import Factbase.Catalog.Building
import Factbase.Proofs.Ingest.Staging

/-!
# Databases agree with their schema

The live schema of a catalog changes under the databases that are being
built. A database takes it over only where it defines the predicates of
the facts by the same types, so the facts that are there keep agreeing
with the schema they are stored under; and the facts that come in are
staged under that schema.

The invariant is stated for a catalog in memory (`Catalog.Good`). One
operation keeps it whether it succeeds or not, so any number of them do.
-/

namespace Factbase

open LawfulFactStore

/-! ## Databases -/

namespace Database

variable {met : Content → Prop} {db : Database} {log : List Fact}

/-- The facts of a database are in memory, and agree with the schema that they are stored
under. -/
structure Good (met : Content → Prop) (db : Database) (log : List Fact) : Prop where
  holds : ∃ s, db.store = .memory s ∧ Holds s log
  sound : Sound met log
  agrees : Agrees db.stored log

theorem Good.setState (h : db.Good met log) (state : StoreState) : (db.setState state).Good met log := by
  obtain ⟨s, hstore, hholds⟩ := h.holds
  refine ⟨⟨FactStore.setState s state, ?_, holds_setState state hholds⟩, h.sound, h.agrees⟩
  rw [Database.setState, hstore]
  rfl

/-- A new database in memory has no facts. -/
theorem good_create (repo : Repo) (live : Schema) :
    (Database.create repo (.memory .empty) live).Good met [] where
  holds := ⟨FactStore.setState (FactStore.saveSchema MemoryStore.empty live.toBytes) .building, rfl,
    holds_setState _ (holds_saveSchema _ holds_empty)⟩
  sound := .nil
  agrees := .nil

/-- A database follows the live schema only if that has the same types for all facts. -/
theorem Good.follow (h : db.Good met log) {live : Schema} {followed : Database}
    (hfollow : db.follow live = .ok followed) :
    followed = { db with stored := live } ∧ followed.Good met log := by
  obtain ⟨s, hstore, hholds⟩ := h.holds
  unfold Database.follow at hfollow
  split at hfollow
  · cases hfollow
  · rename_i hsame
    cases hfollow
    refine ⟨rfl, ⟨s, hstore, hholds⟩, h.sound, fun f hf => ?_⟩
    have hkey : f.predicate ∈ (FactStore.statistics db.store).tallies.keys := by
      have hstats : FactStore.statistics db.store = (FactIndex.ofFacts log).stats := by
        rw [hstore]
        show FactStore.statistics s = _
        exact statistics_eq hholds
      rw [hstats, FactIndex.mem_tallies_ofFacts]
      exact ⟨f, hf, rfl⟩
    have hsame := List.find?_eq_none.mp hsame f.predicate hkey
    obtain ⟨d, hd, hadmits⟩ := h.agrees f hf
    unfold sameTypes at hsame
    rw [hd] at hsame
    cases he : live.get? f.predicate with
    | none => simp [he] at hsame
    | some e =>
        simp only [he, Bool.not_eq_true, Bool.not_eq_false', Bool.and_eq_true,
          decide_eq_true_eq] at hsame
        exact ⟨e, rfl, by rw [← hsame.1]; exact hadmits.key, by rw [← hsame.2]; exact hadmits.value,
          by rw [← hsame.1, ← hsame.2]; exact hadmits.targets⟩

/-- A file that is added agrees with the schema, as the facts do that are there. -/
theorem Good.addFile [DecidablePred met] (hfree : CollisionFree met) (h : db.Good met log)
    (hs : db.stored.Coherent) (hnarrow : db.stored.Narrow) {f : FactFile}
    (hwithin : f.Within met db.stored db.store) {filled : Database}
    (hfill : db.addFile f = .ok filled) : ∃ more, filled.Good met (log ++ more) := by
  obtain ⟨s, hstore, hholds⟩ := h.holds
  unfold Database.addFile at hfill
  obtain ⟨b, hb, hrest⟩ := Outcome.bind_ok_iff.mp hfill
  obtain ⟨t, ht, hout⟩ := Outcome.bind_ok_iff.mp hrest
  cases hout
  rw [hstore] at hb hwithin ht
  obtain ⟨s', hs', rfl⟩ := Outcome.map_ok_iff.mp ht
  obtain ⟨hholds', hsound, hagrees⟩ := FactFile.commit_sound hholds h.sound hfree
    (fun _ _ => trivial) hs hnarrow h.agrees hwithin hb hs'
  exact ⟨b.facts, ⟨_, rfl, hholds'⟩, hsound, hagrees⟩

/-- Ingesting a file keeps a database good, whether the file is added or not. -/
theorem Good.ingest [DecidablePred met] (hfree : CollisionFree met) (h : db.Good met log)
    {live : Schema} (hs : live.Coherent) (hnarrow : live.Narrow) {f : FactFile}
    (hwithin : ∀ followed, db.follow live = .ok followed →
      f.Within met followed.stored followed.store) :
    ∃ more, (db.ingest live f).1.Good met (log ++ more) := by
  have hsame {db : Database} (h : db.Good met log) : ∃ more, db.Good met (log ++ more) :=
    ⟨[], by rwa [List.append_nil]⟩
  unfold Database.ingest
  split
  · exact hsame h
  · split
    · exact hsame (h.setState .incomplete)
    · rename_i followed hfollow
      obtain ⟨rfl, hfollowed⟩ := h.follow hfollow
      split
      · exact hsame (hfollowed.setState .incomplete)
      · rename_i filled hfill
        exact hfollowed.addFile hfree hs hnarrow (hwithin _ hfollow) hfill

theorem Good.finalize (h : db.Good met log) {live : Schema} {sealed : Database}
    (hseal : db.finalize live = .ok sealed) : sealed.Good met log := by
  unfold Database.finalize at hseal
  obtain ⟨-, -, hrest⟩ := Outcome.bind_ok_iff.mp hseal
  obtain ⟨followed, hfollow, hout⟩ := Outcome.bind_ok_iff.mp hrest
  cases hout
  obtain ⟨-, hfollowed⟩ := h.follow hfollow
  obtain ⟨s, hstore, hholds⟩ := hfollowed.holds
  refine ⟨⟨FactStore.setState (FactStore.saveSchema s live.toBytes) .complete, ?_,
    holds_setState _ (holds_saveSchema _ hholds)⟩, hfollowed.sound, hfollowed.agrees⟩
  dsimp only
  rw [hstore]
  rfl

theorem Good.abandon (h : db.Good met log) {given : Database} (hgive : db.abandon = .ok given) :
    given.Good met log := by
  unfold Database.abandon at hgive
  obtain ⟨-, -, hout⟩ := Outcome.bind_ok_iff.mp hgive
  cases hout
  exact h.setState .incomplete

end Database

/-! ## Actions -/

namespace Catalog

namespace Action

variable {α β : Type}

/-- The outcome of an action and the catalog that it leaves behind. -/
def eval (a : Action α) (c : Catalog) : Except Error α × Catalog := a.run.run c

theorem eval_bind (x : Action α) (f : α → Action β) (c : Catalog) :
    (x >>= f).eval c = match x.eval c with
      | (.ok a, c') => (f a).eval c'
      | (.error e, c') => (.error e, c') := by
  unfold eval
  simp only [ExceptT.run_bind, StateT.run_bind]
  cases hx : x.run.run c with
  | mk r c' => cases r <;> rfl

theorem eval_tryCatch (x : Action α) (handle : Error → Action α) (c : Catalog) :
    eval (tryCatch x handle) c = match x.eval c with
      | (.ok a, c') => (.ok a, c')
      | (.error e, c') => (handle e).eval c' := by
  unfold eval
  simp only [tryCatch, tryCatchThe, MonadExceptOf.tryCatch, ExceptT.tryCatch, ExceptT.run_mk,
    StateT.run_bind]
  cases hx : x.run.run c with
  | mk r c' =>
      have hx : StateT.run x c = (r, c') := hx
      rw [hx]
      cases r <;> rfl

/-- An action leaves a catalog behind that `P` holds of, and what it gives satisfies `Q`. -/
def Leaves (P : Catalog → Prop) (Q : α → Prop) (x : Action α) (c : Catalog) : Prop :=
  P (x.eval c).2 ∧ ∀ a, (x.eval c).1 = .ok a → Q a

variable {P : Catalog → Prop} {Q : α → Prop} {R : β → Prop}

namespace Leaves

theorem pure {c : Catalog} (hc : P c) {a : α} (ha : Q a) : Leaves P Q (pure a) c :=
  ⟨hc, fun b hb => by cases hb; exact ha⟩

theorem throw {c : Catalog} (hc : P c) {e : Error} : Leaves P Q (throw e) c :=
  ⟨hc, fun b hb => by cases hb⟩

theorem lift {c : Catalog} (hc : P c) {r : Except Error α} (hr : ∀ a, r = .ok a → Q a) :
    Leaves P Q (liftM r) c :=
  ⟨hc, hr⟩

theorem get {c : Catalog} (hc : P c) : Leaves P (· = c) get c :=
  ⟨hc, fun b hb => by cases hb; rfl⟩

theorem set {c c' : Catalog} (hc' : P c') : Leaves P (fun _ => True) (set c') c :=
  ⟨hc', fun _ _ => trivial⟩

theorem modify {c : Catalog} {f : Catalog → Catalog} (hf : P (f c)) :
    Leaves P (fun _ => True) (modify f) c :=
  ⟨hf, fun _ _ => trivial⟩

theorem bind {x : Action α} {f : α → Action β} {c : Catalog} (hx : Leaves P Q x c)
    (hf : ∀ a c', P c' → Q a → Leaves P R (f a) c') : Leaves P R (x >>= f) c := by
  unfold Leaves
  rw [eval_bind]
  obtain ⟨hP, hQ⟩ := hx
  cases heval : x.eval c with
  | mk r c' =>
      rw [heval] at hP hQ
      cases r with
      | ok a => exact hf a c' hP (hQ a rfl)
      | error e => exact ⟨hP, fun b hb => by cases hb⟩

theorem tryCatch {x : Action α} {handle : Error → Action α} {c : Catalog} (hx : Leaves P Q x c)
    (hhandle : ∀ e c', P c' → Leaves P Q (handle e) c') :
    Leaves P Q (tryCatch x handle) c := by
  unfold Leaves
  rw [eval_tryCatch]
  obtain ⟨hP, hQ⟩ := hx
  cases heval : x.eval c with
  | mk r c' =>
      rw [heval] at hP hQ
      cases r with
      | ok a => exact ⟨hP, hQ⟩
      | error e => exact hhandle e c' hP

end Leaves

end Action

/-! ## Operations -/

/-- The databases of a catalog in memory are good, and `live` is its live schema. -/
structure Good (met : Content → Prop) (live : Schema) (c : Catalog) : Prop where
  root : c.root = none
  live_eq : c.live = live
  databases : ∀ repo db, c.databases.get? repo = some db → ∃ log, db.Good met log

variable {met : Content → Prop} {live : Schema} {c : Catalog}

theorem Good.put (h : Good met live c) {db : Database} (hdb : ∃ log, db.Good met log) :
    Good met live (c.put db) where
  root := h.root
  live_eq := h.live_eq
  databases repo db' hget := by
    unfold Catalog.put at hget
    dsimp only at hget
    rw [SortedMap.get?_insert] at hget
    split at hget
    · cases hget
      exact hdb
    · exact h.databases repo db' hget

theorem Good.database (h : Good met live c) {repo : Repo} {db : Database}
    (hdb : c.database repo = .ok db) : ∃ log, db.Good met log := by
  unfold Catalog.database at hdb
  split at hdb
  · cases hdb
    exact h.databases repo _ ‹_›
  · cases hdb

open Factbase.Catalog.Action

theorem newStore_leaves (h : Good met live c) (repo : Repo) :
    Leaves (Good met live) (· = .memory .empty) (newStore repo) c := by
  unfold newStore
  refine Leaves.bind (Leaves.get h) fun c₁ c' hc' hc₁ => ?_
  subst hc₁
  rw [h.root]
  exact Leaves.pure hc' rfl

theorem create_leaves (h : Good met live c) (name : String) (hash : Option String) :
    Leaves (Good met live) (fun _ => True) (create name hash) c := by
  unfold create
  refine Leaves.bind (Leaves.get h) fun c₁ c' hc' hc₁ => ?_
  refine Leaves.bind (Leaves.lift (Q := fun _ => True) hc' fun _ _ => trivial) fun repo c' hc' _ => ?_
  have hnew : ∀ c', Good met live c' → Leaves (Good met live) (fun _ => True)
      (do
        let db := Database.create repo (← newStore repo) c₁.live
        modify (·.put db)
        return db : Action Database) c' := by
    intro c' hc'
    refine Leaves.bind (newStore_leaves hc' repo) fun store c' hc' hstore => ?_
    subst hstore
    refine Leaves.bind (Leaves.modify (hc'.put ⟨[], Database.good_create repo c₁.live⟩))
      fun _ c' hc' _ => Leaves.pure hc' trivial
  dsimp only
  split
  · exact Leaves.bind (Leaves.throw (Q := fun _ => True) hc') fun _ c' hc' _ => hnew c' hc'
  · exact hnew c' hc'

theorem giveUp_leaves (h : Good met live c) (repo : Repo) :
    Leaves (Good met live) (fun _ => True) (giveUp repo) c := by
  unfold giveUp
  refine Leaves.bind (Leaves.get h) fun c₁ c' hc' hc₁ => ?_
  subst hc₁
  split
  · rename_i db hdb
    split
    · obtain ⟨log, hgood⟩ := h.databases repo db hdb
      exact Leaves.set (h.put ⟨log, hgood.setState .incomplete⟩)
    · exact Leaves.pure hc' trivial
  · exact Leaves.pure hc' trivial

theorem finalize_leaves (h : Good met live c) (repo : Repo) :
    Leaves (Good met live) (fun _ => True) (finalize repo) c := by
  unfold finalize
  refine Leaves.bind (Leaves.get h) fun c₁ c' hc' hc₁ => ?_
  subst hc₁
  refine Leaves.bind (Leaves.lift hc' fun db hdb => h.database hdb) fun db c' hc' hdb => ?_
  obtain ⟨log, hgood⟩ := hdb
  refine Leaves.bind (Leaves.lift hc' fun sealed hseal => ⟨log, hgood.finalize hseal⟩)
    fun sealed c' hc' hsealed => Leaves.set (h.put hsealed)

theorem abandon_leaves (h : Good met live c) (repo : Repo) :
    Leaves (Good met live) (fun _ => True) (abandon repo) c := by
  unfold abandon
  refine Leaves.bind (Leaves.get h) fun c₁ c' hc' hc₁ => ?_
  subst hc₁
  refine Leaves.bind (Leaves.lift hc' fun db hdb => h.database hdb) fun db c' hc' hdb => ?_
  obtain ⟨log, hgood⟩ := hdb
  refine Leaves.bind (Leaves.lift hc' fun given hgive => ⟨log, hgood.abandon hgive⟩)
    fun given c' hc' hgiven => Leaves.set (h.put hgiven)

/-! ## Files -/

section Files

variable (met) [DecidablePred met]

/-- The contents that a file brings to a database are met. -/
def WithinFile (c : Catalog) (repo : Repo) (f : FactFile) : Prop :=
  ∀ db ∈ c.databases.get? repo, ∀ followed ∈ (db.follow c.live).toOption,
    f.Within met followed.stored followed.store

/-- A condition holds of each of some things where its turn comes. -/
def WithinEach {α : Type} (within : Catalog → α → Prop) (x : α → Action Nat) : Catalog → List α → Prop
  | _, [] => True
  | c, a :: as => within c a ∧ WithinEach within x ((x a).eval c).2 as

/-- The contents that files bring to a database, one after another, are met. -/
def WithinFiles (repo : Repo) (c : Catalog) (files : List FactFile) : Prop :=
  WithinEach (fun c f => WithinFile met c repo f) (ingestFile repo) c files

/-- The contents of the file that a path names are met. -/
def WithinPath (c : Catalog) (repo : Repo) (p : Path) : Prop :=
  ∀ f, c.files.readFacts p = .ok f → WithinFile met c repo f

/-- The contents of the files that paths name, one after another, are met. -/
def WithinPaths (repo : Repo) (c : Catalog) (paths : List Path) : Prop :=
  WithinEach (fun c p => WithinPath met c repo p) (ingestPath repo) c paths

/-- The contents that loading files brings to the database that is made for them are met. -/
def WithinLoad (c : Catalog) (repo : Option Repo) (paths : List Path) : Prop :=
  ∀ files db c', paths.mapM c.files.readFacts = .ok files →
    (createFor repo paths).eval c = (.ok db, c') → WithinFiles met db.repo c' files

/-- What each of some actions keeps where its turn comes, all of them together keep. -/
theorem fold_leaves {α : Type} {P : Catalog → Prop} {within : Catalog → α → Prop}
    {x : α → Action Nat}
    (hx : ∀ c a, P c → within c a → Leaves P (fun _ => True) (x a) c) (as : List α) (n : Nat)
    {c : Catalog} (hc : P c) (hwithin : WithinEach within x c as) :
    Leaves P (fun _ => True) (as.foldlM (fun n a => return n + (← x a)) n : Action Nat) c := by
  induction as generalizing c n with
  | nil => exact Leaves.pure hc trivial
  | cons a as ih =>
      obtain ⟨ha, has⟩ := hwithin
      have hstep := (hx c a hc ha).1
      rw [List.foldlM_cons, Leaves, eval_bind, eval_bind]
      cases heval : (x a).eval c with
      | mk r c' =>
          rw [heval] at hstep has
          cases r with
          | ok added => exact ih (n + added) hstep has
          | error e => exact ⟨hstep, fun _ _ => trivial⟩

/-- Looking a database up first changes nothing. -/
theorem eval_checked {α : Type} (c : Catalog) (repo : Repo) (x : Action α) :
    eval (do discard ((← get).database repo); x) c = match c.database repo with
      | .ok _ => x.eval c
      | .error e => (.error e, c) := by
  rw [eval_bind]
  have hget : eval (get : Action Catalog) c = (.ok c, c) := rfl
  rw [hget]
  dsimp only
  rw [eval_bind]
  cases c.database repo <;> rfl

theorem checked_leaves {α : Type} {P : Catalog → Prop} {c : Catalog} (h : P c) {repo : Repo}
    {x : Action α} (hx : Leaves P (fun _ => True) x c) :
    Leaves P (fun _ => True)
      (do
        discard ((← get).database repo)
        x) c := by
  unfold Leaves
  rw [eval_checked]
  cases c.database repo with
  | ok db => exact hx
  | error e => exact ⟨h, fun _ _ => trivial⟩

/-- Files are read before anything changes. -/
theorem eval_load (c : Catalog) (repo : Option Repo) (paths : List Path) :
    eval (load repo paths) c = match paths.mapM c.files.readFacts with
      | .error e => (.error e, c)
      | .ok files =>
        eval (do
          let db ← createFor repo paths
          build db.repo files
          return db.repo) c := by
  unfold load
  rw [eval_bind]
  have hget : eval (get : Action Catalog) c = (.ok c, c) := rfl
  rw [hget]
  dsimp only
  rw [eval_bind]
  cases paths.mapM c.files.readFacts <;> rfl

variable {met} (hfree : CollisionFree met) (hlive : live.Coherent) (hnarrow : live.Narrow)

include hfree hlive hnarrow

theorem ingestFile_leaves (h : Good met live c) {repo : Repo} {f : FactFile}
    (hwithin : WithinFile met c repo f) :
    Leaves (Good met live) (fun _ => True) (ingestFile repo f) c := by
  unfold ingestFile
  refine Leaves.bind (Leaves.get h) fun c₁ c' hc' hc₁ => ?_
  subst hc₁
  have hdatabase : ∀ db, c₁.database repo = .ok db →
      ∃ log, (db.ingest c₁.live f).1.Good met log := by
    intro db hdb
    obtain ⟨log, hgood⟩ := h.database hdb
    have hget : c₁.databases.get? repo = some db := by
      unfold Catalog.database at hdb
      split at hdb
      · cases hdb
        assumption
      · cases hdb
    obtain ⟨more, hmore⟩ := hgood.ingest hfree (h.live_eq ▸ hlive) (h.live_eq ▸ hnarrow)
      fun followed hfollow => hwithin db hget followed (Outcome.mem_toOption_iff.mpr hfollow)
    exact ⟨_, hmore⟩
  refine Leaves.bind (Leaves.lift hc' hdatabase) fun db c' hc' hdb => ?_
  exact Leaves.bind (Leaves.set (h.put hdb)) fun _ c' hc' _ => Leaves.lift hc' fun _ _ => trivial

theorem ingestPath_leaves (h : Good met live c) {repo : Repo} {p : Path}
    (hwithin : WithinPath met c repo p) :
    Leaves (Good met live) (fun _ => True) (ingestPath repo p) c := by
  unfold ingestPath
  rw [Leaves, eval_bind]
  have hget : eval (get : Action Catalog) c = (.ok c, c) := rfl
  rw [hget]
  show Leaves _ _ _ c
  cases hread : c.files.readFacts p with
  | ok f => exact ingestFile_leaves hfree hlive hnarrow h (hwithin f hread)
  | error e => exact Leaves.bind (giveUp_leaves h repo) fun _ c' hc' _ => Leaves.throw hc'

theorem ingest_leaves (h : Good met live c) {repo : Repo} {files : List FactFile}
    (hwithin : WithinFiles met repo c files) :
    Leaves (Good met live) (fun _ => True) (ingest repo files) c :=
  checked_leaves h (fold_leaves
    (fun _ _ hc hf => ingestFile_leaves hfree hlive hnarrow hc hf) files 0 h hwithin)

theorem ingestPaths_leaves (h : Good met live c) {repo : Repo} {paths : List Path}
    (hwithin : WithinPaths met repo c paths) :
    Leaves (Good met live) (fun _ => True) (ingestPaths repo paths) c :=
  checked_leaves h (fold_leaves
    (fun _ _ hc hp => ingestPath_leaves hfree hlive hnarrow hc hp) paths 0 h hwithin)

theorem build_leaves (h : Good met live c) {repo : Repo} {files : List FactFile}
    (hwithin : WithinFiles met repo c files) :
    Leaves (Good met live) (fun _ => True) (build repo files) c := by
  unfold build
  refine Leaves.tryCatch ?_ fun e c' hc' => ?_
  · refine Leaves.bind (Q := fun _ => True) ?_ fun _ c' hc' _ => finalize_leaves hc' repo
    exact Leaves.bind (ingest_leaves hfree hlive hnarrow h hwithin) fun _ c' hc' _ =>
      Leaves.pure hc' trivial
  · exact Leaves.bind (giveUp_leaves hc' repo) fun _ c' hc' _ => Leaves.throw hc'

theorem load_leaves (h : Good met live c) {repo : Option Repo} {paths : List Path}
    (hwithin : WithinLoad met c repo paths) :
    Leaves (Good met live) (fun _ => True) (load repo paths) c := by
  have hcreate : Leaves (Good met live) (fun _ => True) (createFor repo paths) c := by
    unfold createFor
    split
    · exact create_leaves h _ _
    · exact create_leaves h _ _
    · exact Leaves.throw h
  unfold Leaves
  rw [eval_load]
  cases hfiles : paths.mapM c.files.readFacts with
  | error e => exact ⟨h, fun _ _ => trivial⟩
  | ok files =>
      dsimp only
      rw [eval_bind]
      cases hdb : (createFor repo paths).eval c with
      | mk r c' =>
          have hc' := hcreate.1
          rw [hdb] at hc'
          cases r with
          | error e => exact ⟨hc', fun _ _ => trivial⟩
          | ok db =>
              exact Leaves.bind
                (build_leaves hfree hlive hnarrow hc' (hwithin files db c' hfiles hdb))
                fun _ c' hc' _ => Leaves.pure hc' trivial

end Files

/-! ## Runs -/

/-- An operation on a catalog, or a change to the files around it. -/
inductive Op where
  | register (source : String)
  | reload (dir : Path)
  | create (name : String) (hash : Option String)
  | ingest (repo : Repo) (files : List FactFile)
  | ingestPaths (repo : Repo) (paths : List Path)
  | finalize (repo : Repo)
  | abandon (repo : Repo)
  | load (repo : Option Repo) (paths : List Path)
  | changeFiles (files : FileTree)

/-- The catalog that an operation leaves behind, whether it succeeds or not. -/
def Op.run (c : Catalog) : Op → Catalog
  | .register source => ((Catalog.register source).eval c).2
  | .reload dir => ((Catalog.reload dir).eval c).2
  | .create name hash => ((Catalog.create name hash).eval c).2
  | .ingest repo files => ((Catalog.ingest repo files).eval c).2
  | .ingestPaths repo paths => ((Catalog.ingestPaths repo paths).eval c).2
  | .finalize repo => ((Catalog.finalize repo).eval c).2
  | .abandon repo => ((Catalog.abandon repo).eval c).2
  | .load repo paths => ((Catalog.load repo paths).eval c).2
  | .changeFiles files => { c with files }

/-- The contents that an operation brings to databases are met. -/
def Op.Within (met : Content → Prop) [DecidablePred met] (c : Catalog) : Op → Prop
  | .ingest repo files => WithinFiles met repo c files
  | .ingestPaths repo paths => WithinPaths met repo c paths
  | .load repo paths => WithinLoad met c repo paths
  | _ => True

/-- The catalog after operations in order. -/
def after (c : Catalog) (ops : List Op) : Catalog := ops.foldl Op.run c

/-- Along a run all contents that are brought to databases are met, and no sum of the live
schema has more alternatives than an index can tell apart. -/
def RunWithin (met : Content → Prop) [DecidablePred met] : Catalog → List Op → Prop
  | _, [] => True
  | c, op :: ops => c.live.Narrow ∧ op.Within met c ∧ RunWithin met (op.run c) ops

/-- A directory of schema files gives a registered schema. -/
theorem registered_of_readSchema {files : FileTree} {dir : Path} {s : Schema}
    (h : files.readSchema dir = .ok s) : s.Registered := by
  unfold FileTree.readSchema at h
  obtain ⟨paths, -, hrest⟩ := Outcome.bind_ok_iff.mp h
  obtain ⟨texts, -, hfold⟩ := Outcome.bind_ok_iff.mp hrest
  refine Outcome.foldlM_ok (fun source _ t t' ht hstep => ?_) Schema.Registered.builtin hfold
  obtain ⟨ds, -, hds⟩ := Outcome.bind_ok_iff.mp hstep
  exact ht.registerAll hds

/-- The catalog with the live schema that was read, if one was. -/
def withLive (c : Catalog) : Except Error Schema → Catalog
  | .ok live => { c with live }
  | .error _ => c

theorem register_eval (c : Catalog) (source : String) :
    ((Catalog.register source).eval c).2 = c.withLive (Schema.parse source >>= c.live.registerAll) := by
  unfold Catalog.register
  rw [eval_bind]
  have hget : eval (get : Action Catalog) c = (.ok c, c) := rfl
  rw [hget]
  dsimp only
  rw [eval_bind]
  cases hparse : Schema.parse source with
  | error e => rfl
  | ok ds =>
      have hlift : eval (liftM (Except.ok ds : Except Error _) : Action _) c = (.ok ds, c) := rfl
      rw [hlift]
      dsimp only
      rw [eval_bind]
      show _ = c.withLive (c.live.registerAll ds)
      cases c.live.registerAll ds <;> rfl

theorem reload_eval (c : Catalog) (dir : Path) :
    ((Catalog.reload dir).eval c).2 = c.withLive (c.files.readSchema dir) := by
  unfold Catalog.reload
  rw [eval_bind]
  have hget : eval (get : Action Catalog) c = (.ok c, c) := rfl
  rw [hget]
  dsimp only
  rw [eval_bind]
  cases c.files.readSchema dir <;> rfl

/-- A new live schema leaves the databases as they are. -/
theorem Good.withLive (h : Good met live c) (hlive : live.Registered) {r : Except Error Schema}
    (hr : ∀ live', r = .ok live' → live'.Registered) :
    ∃ live', live'.Registered ∧ Good met live' (c.withLive r) := by
  cases r with
  | error e => exact ⟨live, hlive, h⟩
  | ok live' => exact ⟨live', hr live' rfl, h.root, rfl, h.databases⟩

variable [DecidablePred met]

/-- One operation keeps a catalog good. -/
theorem run_good (hfree : CollisionFree met) (h : Good met live c) (hlive : live.Registered)
    (hnarrow : live.Narrow) {op : Op} (hwithin : op.Within met c) :
    ∃ live', live'.Registered ∧ Good met live' (op.run c) := by
  have hcoherent := hlive.coherent
  cases op with
  | register source =>
      rw [Op.run, register_eval]
      refine h.withLive hlive fun live' hlive' => ?_
      obtain ⟨ds, -, hds⟩ := Outcome.bind_ok_iff.mp hlive'
      exact (h.live_eq ▸ hlive).registerAll hds
  | reload dir =>
      rw [Op.run, reload_eval]
      exact h.withLive hlive fun _ => registered_of_readSchema
  | create name hash => exact ⟨live, hlive, (create_leaves h name hash).1⟩
  | ingest repo files =>
      exact ⟨live, hlive, (ingest_leaves hfree hcoherent hnarrow h hwithin).1⟩
  | ingestPaths repo paths =>
      exact ⟨live, hlive, (ingestPaths_leaves hfree hcoherent hnarrow h hwithin).1⟩
  | finalize repo => exact ⟨live, hlive, (finalize_leaves h repo).1⟩
  | abandon repo => exact ⟨live, hlive, (abandon_leaves h repo).1⟩
  | load repo paths => exact ⟨live, hlive, (load_leaves hfree hcoherent hnarrow h hwithin).1⟩
  | changeFiles files => exact ⟨live, hlive, h.root, h.live_eq, h.databases⟩

/-- A run keeps a catalog good. -/
theorem after_good (hfree : CollisionFree met) (h : Good met live c) (hlive : live.Registered)
    {ops : List Op} (hwithin : RunWithin met c ops) :
    ∃ live', live'.Registered ∧ Good met live' (c.after ops) := by
  induction ops generalizing c live with
  | nil => exact ⟨live, hlive, h⟩
  | cons op ops ih =>
      obtain ⟨hnarrow, hop, hops⟩ := hwithin
      obtain ⟨live', hlive', h'⟩ := run_good hfree h hlive (h.live_eq ▸ hnarrow) hop
      exact ih h' hlive' hops

end Catalog

/-- Every fact of a database is one of a predicate of its stored schema, with a key and a value
of its types, and what it refers to at a position of some type is an earlier fact of a
predicate with that name. -/
def Database.FactsAgree (db : Database) : Prop :=
  ∀ id f, db.lookup id = some f → f.id = id ∧
    ∃ d, db.stored.get? f.predicate = some d ∧ d.key.Conforms f.key ∧ d.value.Conforms f.value ∧
      ∀ e ∈ d.key.positions f.key ++ d.value.positions f.value,
        e.2.number < id.number ∧ ∃ g, db.lookup e.2 = some g ∧ g.predicate.name = e.1.name

theorem Database.Good.factsAgree {met : Content → Prop} {db : Database} {log : List Fact}
    (h : db.Good met log) : db.FactsAgree := by
  obtain ⟨s, hstore, hholds⟩ := h.holds
  have hlookup : ∀ id, db.lookup id = log.reverse.find? (·.id = id) := by
    intro id
    rw [Database.lookup, hstore]
    exact lookup_eq hholds id
  intro id f hf
  rw [hlookup] at hf
  have hmem : f ∈ log := List.mem_reverse.mp (List.mem_of_find?_eq_some hf)
  obtain rfl : f.id = id := by simpa using List.find?_some hf
  obtain ⟨d, hd, hadmits⟩ := h.agrees f hmem
  refine ⟨rfl, d, hd, hadmits.key, hadmits.value, fun e he => ?_⟩
  -- the position is a reference of the fact, so it goes to an earlier fact
  have href : e.2 ∈ f.references := by
    rw [Fact.references, Ty.references_eq_positions hadmits.key,
      Ty.references_eq_positions hadmits.value, ← List.map_append]
    exact List.mem_map.mpr ⟨e, he, rfl⟩
  have hearlier := h.sound.ordered.references f hmem e.2 href
  obtain ⟨g, hg, hgid, hunique⟩ := h.sound.ordered.target hmem hearlier
  obtain ⟨g', hg', hgid', hname⟩ := hadmits.targets e he
  obtain rfl := hunique g' hg' hgid'
  refine ⟨hearlier.2, g', ?_, hname⟩
  obtain ⟨w, hw⟩ : ∃ w, log.reverse.find? (·.id = e.2) = some w := by
    rw [← Option.isSome_iff_exists, List.find?_isSome]
    exact ⟨g', List.mem_reverse.mpr hg, by simpa using hgid⟩
  have hwmem : w ∈ log := List.mem_reverse.mp (List.mem_of_find?_eq_some hw)
  have hwid : w.id = e.2 := by simpa using List.find?_some hw
  rw [hlookup, hw, hunique w hwmem hwid]

namespace Catalog

/-- After any operations on a catalog in memory, in any order and whether they succeed or
not, the facts of every database agree with the schema that they are stored under. -/
theorem facts_agree_after (met : Content → Prop) [DecidablePred met] (hfree : CollisionFree met)
    (files : FileTree) (live : Schema) (hlive : live.Registered) (ops : List Op)
    (hwithin : RunWithin met (inMemory files live) ops) :
    ∀ repo db, ((inMemory files live).after ops).databases.get? repo = some db →
      db.FactsAgree := by
  have hstart : Good met live (inMemory files live) := ⟨rfl, rfl, fun _ _ h => by cases h⟩
  obtain ⟨live', -, hgood⟩ := after_good hfree hstart hlive hwithin
  intro repo db hdb
  obtain ⟨log, hlog⟩ := hgood.databases repo db hdb
  exact hlog.factsAgree

/-- A catalog in which a schema is registered, a database is created and filled from a file
whose facts define others inside them, and the database is sealed. -/
def shopOps : List Op :=
  [.register "schema shop.1 \x7b predicate Item : string predicate Sale : \x7b item : Item, count : nat = 1 \x7d \x7d",
    .create "shop" none,
    .ingest ⟨"shop", "0"⟩ [⟨"sales", [⟨"shop.Sale",
      [⟨none, .object [("item", .object [("key", .string "tea")])], none⟩,
        ⟨none, .object [("item", .object [("key", .string "tea")]), ("count", .nat 2)], none⟩]⟩]⟩],
    .finalize ⟨"shop", "0"⟩]

/-- The contents that `shopOps` brings. -/
def shopMet : List Content :=
  [(⟨"shop.Item", 1⟩, .string "tea", .unit),
    (⟨"shop.Sale", 1⟩, .record [.fact .first, .nat 1], .unit),
    (⟨"shop.Sale", 1⟩, .record [.fact .first, .nat 2], .unit)]

theorem facts_agree_after_shopOps :
    ∃ db, ((inMemory (.startingAt []) .builtin).after shopOps).databases.get? ⟨"shop", "0"⟩ = some db ∧
      db.FactsAgree := by
  have hinj : ∀ a ∈ shopMet, ∀ b ∈ shopMet,
      Blake3.hash (encode a) = Blake3.hash (encode b) → encode a = encode b := by decide +kernel
  have hfree : CollisionFree (· ∈ shopMet) := fun a b ha hb => hinj a ha b hb
  have hsome : (((inMemory (.startingAt []) .builtin).after shopOps).databases.get?
      ⟨"shop", "0"⟩).isSome := by decide +kernel
  obtain ⟨db, hdb⟩ := Option.isSome_iff_exists.mp hsome
  refine ⟨db, hdb, facts_agree_after (· ∈ shopMet) hfree (.startingAt []) .builtin .builtin shopOps
    ⟨?_, trivial, ?_, trivial, ?_, ⟨?_, trivial⟩, ?_, trivial, trivial⟩ _ db hdb⟩
  · unfold Schema.Narrow; decide +kernel
  · unfold Schema.Narrow; decide +kernel
  · unfold Schema.Narrow; decide +kernel
  · unfold WithinFile FactFile.Within; decide +kernel
  · unfold Schema.Narrow; decide +kernel

end Catalog

end Factbase
