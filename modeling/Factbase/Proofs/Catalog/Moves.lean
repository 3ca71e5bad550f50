import Factbase.Proofs.Catalog.Agreement
import Mathlib.Logic.Relation

/-!
# What operations do to a catalog

Apart from reopening, whatever happens to the databases of a catalog is
made of a few moves: a database is created, gets the facts of a file, or
is given up. Sealing one is a step of its own. It happens where a
database is finalized, and at the end of a load that succeeds; nothing
else seals a database.
-/

namespace Factbase

namespace Database

variable {db followed done : Database} {live : Schema}

theorem building_of_check (h : db.checkBuilding = .ok ()) : db.state = .building := by
  unfold checkBuilding at h
  split at h
  · assumption
  · cases h
  · cases h

theorem check_of_building (h : db.state = .building) : db.checkBuilding = .ok () := by
  rw [checkBuilding, h]

theorem follow_eq (h : db.follow live = .ok followed) : followed = { db with stored := live } := by
  unfold follow at h
  split at h
  · cases h
  · cases h
    rfl

/-- What ingesting a file makes of a database: one that is not building stays as it is, and
one that is gets the facts or is given up. -/
theorem ingest_cases (db : Database) (live : Schema) (f : FactFile) :
    db.state ≠ .building ∧ (∃ e, db.ingest live f = (db, .error e)) ∨
    db.state = .building ∧
      ((∃ stored e, db.ingest live f = ({ db with stored }.setState .incomplete, .error e)) ∨
        ∃ b t, f.stage live db.store = .ok b ∧ FactStore.commit db.store b = .ok t ∧
          db.ingest live f = ({ db with store := t, stored := live },
            .ok ((FactStore.nextId t).number.toNat - (FactStore.nextId db.store).number.toNat))) := by
  unfold Database.ingest
  cases hcheck : db.checkBuilding with
  | error e =>
      refine .inl ⟨fun hbuilding => ?_, e, rfl⟩
      rw [check_of_building hbuilding] at hcheck
      cases hcheck
  | ok u =>
      refine .inr ⟨building_of_check hcheck, ?_⟩
      cases hfollow : db.follow live with
      | error e => exact .inl ⟨db.stored, e, rfl⟩
      | ok followed =>
          obtain rfl := follow_eq hfollow
          dsimp only
          cases hfill : ({ db with stored := live } : Database).addFile f with
          | error e => exact .inl ⟨live, e, rfl⟩
          | ok filled =>
              unfold Database.addFile at hfill
              obtain ⟨b, hb, hrest⟩ := Outcome.bind_ok_iff.mp hfill
              obtain ⟨t, ht, hout⟩ := Outcome.bind_ok_iff.mp hrest
              cases hout
              exact .inr ⟨b, t, hb, ht, rfl⟩

/-- Only a building database is sealed, and then it has the live schema. -/
theorem finalize_eq (h : db.finalize live = .ok done) :
    db.state = .building ∧ done = { db with
      store := FactStore.setState (FactStore.saveSchema db.store live.toBytes) .complete
      stored := live } := by
  unfold Database.finalize at h
  obtain ⟨⟨⟩, hcheck, hrest⟩ := Outcome.bind_ok_iff.mp h
  obtain ⟨followed, hfollow, hout⟩ := Outcome.bind_ok_iff.mp hrest
  obtain rfl := follow_eq hfollow
  cases hout
  exact ⟨building_of_check hcheck, rfl⟩

end Database

namespace Catalog

open Action

/-! ## Steps of actions -/

namespace Action

variable {α β : Type}

theorem eval_get (c : Catalog) : eval (get : Action Catalog) c = (.ok c, c) := rfl

theorem eval_discard (x : Action α) (c : Catalog) :
    eval (discard x) c = match x.eval c with
      | (.ok _, c') => (.ok ⟨⟩, c')
      | (.error e, c') => (.error e, c') := by
  have hmap : discard x = x >>= fun _ => pure ⟨⟩ := by
    rw [discard, LawfulFunctor.map_const, Function.comp_apply, map_eq_pure_bind]
  rw [hmap, eval_bind]
  rfl

theorem eval_lift (r : Except Error α) (c : Catalog) : eval (liftM r : Action α) c = (r, c) := rfl

end Action

variable {c c' : Catalog} {repo : Repo} {db : Database}

theorem database_ok_iff : c.database repo = .ok db ↔ c.databases.get? repo = some db := by
  unfold Catalog.database
  cases c.databases.get? repo <;> simp

theorem finalize_eval (c : Catalog) (repo : Repo) :
    (finalize repo).eval c = match c.database repo with
      | .error e => (.error e, c)
      | .ok db =>
        match db.finalize c.live with
        | .error e => (.error e, c)
        | .ok done => (.ok (), c.put done) := by
  unfold finalize
  simp only [eval_bind, eval_get, eval_lift]
  cases c.database repo with
  | error e => rfl
  | ok db =>
      dsimp only
      cases db.finalize c.live <;> rfl

theorem abandon_eval (c : Catalog) (repo : Repo) :
    (abandon repo).eval c = match c.database repo with
      | .error e => (.error e, c)
      | .ok db =>
        match db.abandon with
        | .error e => (.error e, c)
        | .ok given => (.ok (), c.put given) := by
  unfold abandon
  simp only [eval_bind, eval_get, eval_lift]
  cases c.database repo with
  | error e => rfl
  | ok db =>
      dsimp only
      cases db.abandon <;> rfl

theorem ingestFile_eval (c : Catalog) (repo : Repo) (f : FactFile) :
    (ingestFile repo f).eval c = match c.database repo with
      | .error e => (.error e, c)
      | .ok db => ((db.ingest c.live f).2, c.put (db.ingest c.live f).1) := by
  unfold ingestFile
  simp only [eval_bind, eval_get, eval_lift]
  cases c.database repo with
  | error e => rfl
  | ok db => rfl

theorem giveUp_eval (c : Catalog) (repo : Repo) :
    (giveUp repo).eval c = match c.databases.get? repo with
      | some db =>
        if db.state = .building then (.ok (), c.put (db.setState .incomplete)) else (.ok (), c)
      | none => (.ok (), c) := by
  unfold giveUp
  simp only [eval_bind, eval_get]
  cases c.databases.get? repo with
  | none => rfl
  | some db =>
      dsimp only
      split <;> rfl

/-! ## Moves -/

/-- One thing that happens to a catalog and seals no database. -/
inductive Move (c : Catalog) : Catalog → Prop where
  | fill {repo : Repo} {db : Database} (f : FactFile) (h : c.databases.get? repo = some db) :
      Move c (c.put (db.ingest c.live f).1)
  | giveUp {repo : Repo} {db : Database} (h : c.databases.get? repo = some db)
      (hbuilding : db.state = .building) : Move c (c.put (db.setState .incomplete))
  /-- There is no store for a new database. -/
  | refuse {repo : Repo} {e : Error} {c' : Catalog} (hnew : c.databases.get? repo = none)
      (h : (newStore repo).eval c = (.error e, c')) : Move c c'
  | create {repo : Repo} {store : Store} {c' : Catalog} (hnew : c.databases.get? repo = none)
      (h : (newStore repo).eval c = (.ok store, c')) :
      Move c (c'.put (Database.create repo store c.live))

/-- Any number of moves. -/
abbrev Moves : Catalog → Catalog → Prop := Relation.ReflTransGen Move

/-- A building database is sealed. -/
def Seals (repo : Repo) (c c' : Catalog) : Prop :=
  ∃ db done, c.databases.get? repo = some db ∧ db.finalize c.live = .ok done ∧ c' = c.put done

/-- An action that only moves, from whatever catalog it starts. -/
def Action.Moving {α : Type} (x : Action α) : Prop := ∀ c, Moves c (x.eval c).2

namespace Action.Moving

variable {α β : Type}

theorem pure (a : α) : Moving (pure a) := fun _ => .refl

theorem throw (e : Error) : Moving (throw e : Action α) := fun _ => .refl

theorem bind {x : Action α} {f : α → Action β} (hx : Moving x) (hf : ∀ a, Moving (f a)) :
    Moving (x >>= f) := by
  intro c
  have hstart := hx c
  rw [eval_bind]
  cases heval : x.eval c with
  | mk r c' =>
      rw [heval] at hstart
      cases r with
      | ok a => exact hstart.trans (hf a c')
      | error e => exact hstart

theorem get : Moving (get : Action Catalog) := fun _ => .refl

theorem lift (r : Except Error α) : Moving (liftM r : Action α) := fun _ => .refl

theorem discard {x : Action α} (hx : Moving x) : Moving (discard x) := by
  intro c
  have hstart := hx c
  rw [eval_discard]
  cases heval : x.eval c with
  | mk r c' =>
      rw [heval] at hstart
      cases r <;> exact hstart

theorem foldlM {f : β → α → Action β} (hf : ∀ b a, Moving (f b a)) (l : List α) (b : β) :
    Moving (l.foldlM f b) := by
  induction l generalizing b with
  | nil => exact pure b
  | cons a l ih =>
      rw [List.foldlM_cons]
      exact (hf b a).bind ih

end Action.Moving

theorem ingestFile_moving (repo : Repo) (f : FactFile) : Moving (ingestFile repo f) := by
  intro c
  rw [ingestFile_eval]
  cases hdb : c.database repo with
  | error e => exact .refl
  | ok db => exact .single (.fill f (database_ok_iff.mp hdb))

theorem giveUp_moving (repo : Repo) : Moving (giveUp repo) := by
  intro c
  rw [giveUp_eval]
  cases hdb : c.databases.get? repo with
  | none => exact .refl
  | some db =>
      dsimp only
      split
      · exact .single (.giveUp hdb ‹_›)
      · exact .refl

/-- Abandoning a database gives it up while it is building, and changes nothing otherwise. -/
theorem abandon_cases (c : Catalog) (repo : Repo) :
    ((abandon repo).eval c).2 = c ∨ ∃ db, c.databases.get? repo = some db ∧ db.state = .building ∧
      ((abandon repo).eval c).2 = c.put (db.setState .incomplete) := by
  rw [abandon_eval]
  cases hdb : c.database repo with
  | error e => exact .inl rfl
  | ok db =>
      dsimp only
      cases hgive : db.abandon with
      | error e => exact .inl rfl
      | ok given =>
          unfold Database.abandon at hgive
          obtain ⟨⟨⟩, hcheck, hout⟩ := Outcome.bind_ok_iff.mp hgive
          cases hout
          exact .inr ⟨db, database_ok_iff.mp hdb, Database.building_of_check hcheck, rfl⟩

theorem ingest_moving (repo : Repo) (files : List FactFile) : Moving (ingest repo files) :=
  .bind .get fun _ => .bind (.discard (.lift _)) fun _ =>
    .foldlM (fun _ f => (ingestFile_moving repo f).bind fun _ => .pure _) files 0

theorem ingestPath_moving (repo : Repo) (p : Path) : Moving (ingestPath repo p) := by
  refine .bind .get fun c => ?_
  split
  · exact ingestFile_moving repo _
  · exact (giveUp_moving repo).bind fun _ => .throw _

theorem ingestPaths_moving (repo : Repo) (paths : List Path) : Moving (ingestPaths repo paths) :=
  .bind .get fun _ => .bind (.discard (.lift _)) fun _ =>
    .foldlM (fun _ p => (ingestPath_moving repo p).bind fun _ => .pure _) paths 0

/-- A database that is created has an identity that none had before. -/
theorem create_eval (c : Catalog) (name : String) (hash : Option String) :
    (∃ e c', (create name hash).eval c = (.error e, c') ∧ Moves c c') ∨
    ∃ db c', (create name hash).eval c = (.ok db, c') ∧ Moves c c' ∧
      c.databases.get? db.repo = none ∧ c'.databases.get? db.repo = some db := by
  unfold create
  simp only [eval_bind, eval_get, eval_lift]
  generalize Except.mapError _ _ = checked
  cases checked with
  | error e => exact .inl ⟨_, _, rfl, .refl⟩
  | ok repo =>
    dsimp only
    split
    · exact .inl ⟨_, _, rfl, .refl⟩
    · rename_i hnone
      have hnone : c.databases.get? repo = none := Option.eq_none_iff_forall_ne_some.mpr hnone
      simp only [eval_bind]
      cases hstore : (newStore repo).eval c with
      | mk r c₁ =>
          cases r with
          | error e => exact .inl ⟨e, c₁, rfl, .single (.refuse hnone hstore)⟩
          | ok store =>
              refine .inr ⟨_, _, rfl, .single (.create hnone hstore), hnone, ?_⟩
              exact SortedMap.get?_insert_self ..

theorem create_moving (name : String) (hash : Option String) : Moving (create name hash) := by
  intro c
  rcases create_eval c name hash with ⟨e, c', heval, hmoves⟩ | ⟨db, c', heval, hmoves, -, -⟩
  · rw [heval]
    exact hmoves
  · rw [heval]
    exact hmoves

/-! ## Sealing -/

/-- Finalizing a database seals it, or fails and leaves everything as it is. -/
theorem finalize_cases (c : Catalog) (repo : Repo) :
    (∃ e, (finalize repo).eval c = (.error e, c)) ∨
      ∃ c', (finalize repo).eval c = (.ok (), c') ∧ c.Seals repo c' := by
  rw [finalize_eval]
  cases hdb : c.database repo with
  | error e => exact .inl ⟨e, rfl⟩
  | ok db =>
      dsimp only
      cases hdone : db.finalize c.live with
      | error e => exact .inl ⟨e, rfl⟩
      | ok done => exact .inr ⟨_, rfl, db, done, database_ok_iff.mp hdb, hdone, rfl⟩

/-- Filling a database and sealing it fails without sealing anything. -/
theorem build_cases (c : Catalog) (repo : Repo) (files : List FactFile) :
    (∃ e c', (build repo files).eval c = (.error e, c') ∧ Moves c c') ∨
      ∃ c₁ c', (build repo files).eval c = (.ok (), c') ∧ Moves c c₁ ∧ c₁.Seals repo c' := by
  have hgive : ∀ e c₁, Moves c c₁ →
      ∃ e' c', (do giveUp repo; throw e : Action Unit).eval c₁ = (.error e', c') ∧ Moves c c' := by
    intro e c₁ hmoves
    have hstep := giveUp_moving repo c₁
    rw [eval_bind]
    cases hgave : (giveUp repo).eval c₁ with
    | mk r c₂ =>
        rw [hgave] at hstep
        cases r with
        | ok u => exact ⟨e, c₂, rfl, hmoves.trans hstep⟩
        | error e' => exact ⟨e', c₂, rfl, hmoves.trans hstep⟩
  have hfill := ingest_moving repo files c
  unfold build
  rw [eval_tryCatch, eval_bind, eval_discard]
  cases hingest : (ingest repo files).eval c with
  | mk r c₁ =>
      rw [hingest] at hfill
      cases r with
      | error e =>
          obtain ⟨e', c', heval, hmoves⟩ := hgive e c₁ hfill
          exact .inl ⟨e', c', heval, hmoves⟩
      | ok n =>
          dsimp only
          rcases finalize_cases c₁ repo with ⟨e, heval⟩ | ⟨c', heval, hseals⟩
          · rw [heval]
            obtain ⟨e', c', heval', hmoves⟩ := hgive e c₁ hfill
            exact .inl ⟨e', c', heval', hmoves⟩
          · rw [heval]
            exact .inr ⟨c₁, c', rfl, hfill, hseals⟩

/-- Loading files makes a new database and seals it, or fails without sealing anything. -/
theorem load_cases (c : Catalog) (repo : Option Repo) (paths : List Path) :
    (∃ e c', (load repo paths).eval c = (.error e, c') ∧ Moves c c') ∨
      ∃ made c₁ c', (load repo paths).eval c = (.ok made, c') ∧ Moves c c₁ ∧
        c.databases.get? made = none ∧ c₁.Seals made c' := by
  have hcreate : (∃ e c', (createFor repo paths).eval c = (.error e, c') ∧ Moves c c') ∨
      ∃ db c', (createFor repo paths).eval c = (.ok db, c') ∧ Moves c c' ∧
        c.databases.get? db.repo = none ∧ c'.databases.get? db.repo = some db := by
    unfold createFor
    split
    · exact create_eval c _ _
    · exact create_eval c _ _
    · exact .inl ⟨_, _, rfl, .refl⟩
  rw [eval_load]
  cases paths.mapM c.files.readFacts with
  | error e => exact .inl ⟨e, c, rfl, .refl⟩
  | ok files =>
      dsimp only
      rw [eval_bind]
      rcases hcreate with ⟨e, c', heval, hmoves⟩ | ⟨db, c₁, heval, hmoves, hnew, -⟩
      · rw [heval]
        exact .inl ⟨e, c', rfl, hmoves⟩
      · rw [heval]
        dsimp only
        rw [eval_bind]
        rcases build_cases c₁ db.repo files with ⟨e, c', hbuild, hfill⟩ | ⟨c₂, c', hbuild, hfill, hseals⟩
        · rw [hbuild]
          exact .inl ⟨e, c', rfl, hmoves.trans hfill⟩
        · rw [hbuild]
          exact .inr ⟨db.repo, c₂, c', rfl, hmoves.trans hfill, hnew, hseals⟩

end Catalog

end Factbase
