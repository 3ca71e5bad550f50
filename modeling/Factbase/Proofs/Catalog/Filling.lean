import Factbase.Proofs.Catalog.Lifecycle

/-!
# Filling databases

Files are added to a building database in turn, each as a whole. Where all
can be added the store is the one that staging and committing them in order
gives, and the answer is how far its next id moved. Where one cannot, the
files before it have been added and nothing else has: what was staged of
the file is gone with its batch, and the database is incomplete.

For a catalog, filling a database is one write of the database that comes
of it (`Catalog.ingest_eval`), so nothing else in the catalog changes.
-/

namespace Factbase

/-! ## Stores -/

/-- Two stores answer alike about facts: they have the same ones under the same ids. -/
structure FactStore.SameFacts {σ : Type} [FactStore σ] (s t : σ) : Prop where
  lookup : FactStore.lookup t = FactStore.lookup s
  find : FactStore.find t = FactStore.find s
  scan : FactStore.scan t = FactStore.scan s
  seek : FactStore.seek t = FactStore.seek s
  predicates : FactStore.predicates t = FactStore.predicates s
  statistics : FactStore.statistics t = FactStore.statistics s
  size : FactStore.size t = FactStore.size s
  nextId : FactStore.nextId t = FactStore.nextId s

namespace FactBatch

/-- A batch stands where its facts lead from where it began. -/
structure Counted (b : FactBatch) : Prop where
  le : b.base.number ≤ b.next.number
  last : b.facts.foldl (fun _ f => f.id.next) b.base = b.next

theorem Counted.startingAt (base : FactId) : (startingAt base).Counted := ⟨UInt64.le_refl _, rfl⟩

theorem Counted.push {b : FactBatch} (h : b.Counted) (d : Digest) (p : Predicate) (k v : Value) :
    (b.push d p k v).Counted where
  le := UInt64.le_trans h.le (FactId.le_next b.next)
  last := by
    rw [FactBatch.facts_push, List.foldl_append]
    rfl

theorem Counted.stage {σ : Type} [FactStore σ] {s : σ} {b b' : FactBatch} {p : Predicate}
    {k v : Value} {id : FactId} (h : b.Counted) (hstage : FactStore.stage s b p k v = .ok (b', id)) :
    b'.Counted := by
  rcases stage_cases hstage with ⟨rfl, -⟩ | ⟨rfl, -⟩ | ⟨rfl, -⟩
  · exact h
  · exact h
  · exact h.push ..

end FactBatch

namespace Store

variable {s t : Store} {b : FactBatch} {schema : Schema}

theorem sameFacts_setState (s : Store) (state : StoreState) :
    FactStore.SameFacts s (FactStore.setState s state) := by
  cases s <;> exact ⟨rfl, rfl, rfl, rfl, rfl, rfl, rfl, rfl⟩

/-- Where a store stands after a commit. -/
theorem nextId_commit (h : FactStore.commit s b = .ok t) :
    b.base = FactStore.nextId s ∧ FactStore.nextId t = b.facts.foldl (fun _ f => f.id.next) b.base := by
  cases s with
  | memory s =>
      obtain ⟨s', hs', rfl⟩ := Outcome.map_ok_iff.mp h
      obtain ⟨⟨⟩, hcheck, hout⟩ := Outcome.bind_ok_iff.mp hs'
      obtain ⟨-, hbase⟩ := FactBatch.checkCommit_ok_iff.mp hcheck
      cases hout
      exact ⟨hbase, by rw [hbase]; rfl⟩
  | disk s =>
      obtain ⟨s', hs', rfl⟩ := Outcome.map_ok_iff.mp h
      cases hcheck : b.checkCommit s.next s.state with
      | error e =>
          have hs' : s.commit b = .ok s' := hs'
          rw [DiskStore.commit_refused hcheck] at hs'
          cases hs'
      | ok u =>
          obtain ⟨-, hbase⟩ := FactBatch.checkCommit_ok_iff.mp hcheck
          refine ⟨hbase, ?_⟩
          have hs' : s.commit b = .ok s' := hs'
          by_cases hempty : b.staged = []
          · rw [DiskStore.commit_nil hcheck hempty] at hs'
            cases hs'
            rw [FactBatch.facts, hempty]
            exact hbase.symm
          · rw [DiskStore.commit_eq hcheck hempty] at hs'
            cases hs'
            rw [hbase]
            rfl

/-- A commit of a file moves the next id only ahead. -/
theorem nextId_le_commit {f : FactFile} (hb : f.stage schema s = .ok b)
    (ht : FactStore.commit s b = .ok t) :
    (FactStore.nextId s).number ≤ (FactStore.nextId t).number := by
  have hcounted : b.Counted := FactFile.stage_preserves (P := FactBatch.Counted)
    (fun _ _ _ _ _ _ h hstage => h.stage hstage) (.startingAt _) hb
  obtain ⟨hbase, hnext⟩ := nextId_commit ht
  rw [hnext, hcounted.last, ← hbase]
  exact hcounted.le

/-- A store in memory stays in memory, and one on disk stays there. -/
def SameKind : Store → Store → Prop
  | .memory _, .memory _ | .disk _, .disk _ => True
  | _, _ => False

theorem SameKind.refl (s : Store) : s.SameKind s := by
  cases s <;> trivial

theorem sameKind_setState (s : Store) (state : StoreState) :
    s.SameKind (FactStore.setState s state) := by
  cases s <;> trivial

theorem sameKind_commit (h : FactStore.commit s b = .ok t) : s.SameKind t := by
  cases s <;> obtain ⟨s', -, rfl⟩ := Outcome.map_ok_iff.mp h <;> trivial

/-- The store with the facts of files, staged and committed in order. -/
def addFiles (schema : Schema) (s : Store) : List FactFile → Except Error Store
  | [] => .ok s
  | f :: files => do
    let b ← f.stage schema s
    addFiles schema (← FactStore.commit s b) files

end Store

/-! ## Databases -/

namespace Database

variable {db next : Database} {live : Schema} {files : List FactFile} {n : Nat}

/-- Add the facts of files in turn, until one fails. -/
def ingestAll (db : Database) (live : Schema) : List FactFile → Database × Except Error Nat
  | [] => (db, .ok 0)
  | f :: files =>
    match db.ingest live f with
    | (next, .ok n) => let (last, r) := next.ingestAll live files; (last, (n + ·) <$> r)
    | (next, .error e) => (next, .error e)

theorem ingestAll_cons_ok {f : FactFile} (h : db.ingest live f = (next, .ok n))
    (files : List FactFile) : db.ingestAll live (f :: files) =
      ((next.ingestAll live files).1, (n + ·) <$> (next.ingestAll live files).2) := by
  rw [ingestAll, h]

theorem ingestAll_cons_error {f : FactFile} {e : Error} (h : db.ingest live f = (next, .error e))
    (files : List FactFile) : db.ingestAll live (f :: files) = (next, .error e) := by
  rw [ingestAll, h]

/-- Files were added to a building database, and `n` of their facts were new. -/
structure Fills (db : Database) (live : Schema) (files : List FactFile) (next : Database) (n : Nat) :
    Prop where
  repo : next.repo = db.repo
  store : db.store.addFiles live files = .ok next.store
  state : next.state = .building
  count : (FactStore.nextId db.store).number.toNat + n = (FactStore.nextId next.store).number.toNat

theorem Fills.nil (hbuilding : db.state = .building) : db.Fills live [] db 0 :=
  ⟨rfl, rfl, hbuilding, rfl⟩

theorem Fills.cons {last : Database} {f : FactFile} {b : FactBatch}
    (h : next.Fills live files last n) (hb : f.stage live db.store = .ok b)
    (ht : FactStore.commit db.store b = .ok next.store) (hrepo : next.repo = db.repo) :
    db.Fills live (f :: files) last ((FactStore.nextId next.store).number.toNat -
      (FactStore.nextId db.store).number.toNat + n) where
  repo := h.repo.trans hrepo
  store := by
    rw [Store.addFiles, hb]
    show Except.bind _ _ = _
    rw [Except.bind, ht]
    exact h.store
  state := h.state
  count := by
    have hle := UInt64.le_iff_toNat_le.mp (Store.nextId_le_commit hb ht)
    have hcount := h.count
    omega

/-- Files that cannot be added: those before the first that fails are added, and that one is
tried. -/
structure FailsAt (db : Database) (live : Schema) (files before : List FactFile) (f : FactFile)
    (next : Database) (n : Nat) (e : Error) : Prop where
  split : ∃ after, files = before ++ f :: after
  added : db.ingestAll live before = (next, .ok n)
  fills : db.Fills live before next n
  fails : (next.ingest live f).2 = .error e
  result : db.ingestAll live files = ((next.ingest live f).1, .error e)

/-- Either all files are added, or those before the first that fails. -/
theorem ingestAll_cases (hbuilding : db.state = .building) (live : Schema) (files : List FactFile) :
    (∃ next n, db.ingestAll live files = (next, .ok n) ∧ db.Fills live files next n) ∨
      ∃ before f next n e, db.FailsAt live files before f next n e := by
  induction files generalizing db with
  | nil => exact .inl ⟨db, 0, rfl, .nil hbuilding⟩
  | cons f files ih =>
      rcases db.ingest_cases live f with
        ⟨hnot, -⟩ | ⟨-, ⟨stored, e, heq⟩ | ⟨b, t, hb, ht, heq⟩⟩
      · exact absurd hbuilding hnot
      · refine .inr ⟨[], f, db, 0, e, ⟨files, rfl⟩, rfl, .nil hbuilding, by rw [heq], ?_⟩
        rw [ingestAll_cons_error heq, heq]
      · have hstate : ({ db with store := t, stored := live } : Database).state = .building :=
          (Store.state_commit ht).trans hbuilding
        rcases ih hstate with ⟨next, n, hall, hfills⟩ |
          ⟨before, g, next, n, e, ⟨after, hsplit⟩, hall, hfills, hfails, hresult⟩
        · refine .inl ⟨next, _, ?_, hfills.cons hb ht rfl⟩
          rw [ingestAll_cons_ok heq, hall]
          rfl
        · refine .inr ⟨f :: before, g, next, _, e, ⟨after, by rw [hsplit]; rfl⟩, ?_,
            hfills.cons hb ht rfl, hfails, ?_⟩
          · rw [ingestAll_cons_ok heq, hall]
            rfl
          · rw [ingestAll_cons_ok heq, hresult]
            rfl

theorem ingestAll_of_not_building (hstate : db.state ≠ .building) (live : Schema) (f : FactFile)
    (files : List FactFile) : ∃ e, db.ingestAll live (f :: files) = (db, .error e) := by
  rcases db.ingest_cases live f with ⟨-, e, heq⟩ | ⟨hbuilding, -⟩
  · exact ⟨e, ingestAll_cons_error heq files⟩
  · exact absurd hbuilding hstate

/-- A file that fails leaves the facts of a building database alone, and gives the database up. -/
theorem sameFacts_of_fails (hbuilding : db.state = .building) {f : FactFile} {e : Error}
    (h : (db.ingest live f).2 = .error e) : FactStore.SameFacts db.store (db.ingest live f).1.store ∧
      (db.ingest live f).1.state = .incomplete := by
  rcases db.ingest_cases live f with ⟨hnot, -⟩ | ⟨-, ⟨stored, e', heq⟩ | ⟨b, t, -, -, heq⟩⟩
  · exact absurd hbuilding hnot
  · rw [heq]
    exact ⟨Store.sameFacts_setState .., state_setState ..⟩
  · rw [heq] at h
    cases h

theorem ingest_sameKind (db : Database) (live : Schema) (f : FactFile) :
    db.store.SameKind (db.ingest live f).1.store := by
  rcases db.ingest_cases live f with ⟨-, e, heq⟩ | ⟨-, ⟨stored, e, heq⟩ | ⟨b, t, -, ht, heq⟩⟩
  · rw [heq]
    exact .refl _
  · rw [heq]
    exact Store.sameKind_setState ..
  · rw [heq]
    exact Store.sameKind_commit ht

end Database

/-! ## Catalogs -/

namespace Catalog

open Action

variable {c c' : Catalog} {repo : Repo} {db next : Database}

/-- Databases are kept under their identities, and the files that are there hold their tables. -/
structure Filed (c : Catalog) : Prop where
  named : ∀ repo db, c.databases.get? repo = some db → db.repo = repo
  written : ∀ root repo db s t, c.root = some root → c.databases.get? repo = some db →
    db.store = .disk s → c.files.node? (fileOf root repo) = some (.database t) → t = s.tables

theorem Sound.filed (h : c.Sound) : c.Filed where
  named := h.named
  written root repo db s t hroot hdb hstore hnode := by
    obtain ⟨s', hs', hnode'⟩ := (h.onDisk root hroot).filed repo db hdb
    cases hstore.symm.trans hs'.store
    cases hnode.symm.trans hnode'
    rfl

/-- Only one database is another, and only its file. -/
structure OnlyAt (repo : Repo) (c c' : Catalog) : Prop where
  live : c'.live = c.live
  root : c'.root = c.root
  databases : ∀ r, r ≠ repo → c'.databases.get? r = c.databases.get? r
  files : ∀ place, (∀ root, c.root = some root → place ≠ fileOf root repo) →
    c'.files.node? place = c.files.node? place

theorem onlyAt_put (c : Catalog) (db : Database) : OnlyAt db.repo c (c.put db) where
  live := rfl
  root := rfl
  databases r hne := by rw [get?_put, if_neg hne]
  files place hplace := by
    show (writeThrough c.files c.root db).node? place = _
    unfold writeThrough
    split
    · rename_i root s hroot hstore
      split
      · exact FileTree.node?_put_of_ne (hplace root hroot) ..
      · rfl
    · rfl

/-- Writing a database as it is changes nothing. -/
theorem put_self (h : c.Filed) (hdb : c.databases.get? repo = some db) : c.put db = c := by
  obtain rfl := h.named repo db hdb
  have hfiles : writeThrough c.files c.root db = c.files := by
    unfold writeThrough
    split
    · rename_i root s hroot hstore
      split
      · rename_i t hnode
        obtain rfl := h.written root db.repo db s t hroot hdb hstore hnode
        exact FileTree.put_self hnode
      · rfl
    · rfl
  rw [put, SortedMap.insert_self hdb, hfiles]

/-- Of two writes of a database the second counts. -/
theorem put_put (c : Catalog) (hrepo : next.repo = db.repo) (hkind : db.store.SameKind next.store) :
    (c.put db).put next = c.put next := by
  have hfiles : writeThrough (writeThrough c.files c.root db) c.root next =
      writeThrough c.files c.root next := by
    cases hroot : c.root with
    | none => rfl
    | some root =>
        cases hstore : db.store with
        | memory s =>
            have hsame : writeThrough c.files (some root) db = c.files := by
              unfold writeThrough
              rw [hstore]
            rw [hsame]
        | disk s =>
            obtain ⟨t, hnext⟩ : ∃ t, next.store = .disk t := by
              cases hnext : next.store with
              | memory t =>
                  rw [hstore, hnext] at hkind
                  exact hkind.elim
              | disk t => exact ⟨t, rfl⟩
            by_cases hnode : ∃ tables, c.files.node? (fileOf root db.repo) = some (.database tables)
            · obtain ⟨tables, hnode⟩ := hnode
              rw [writeThrough_eq hstore hnode, ← hrepo,
                writeThrough_eq hnext (FileTree.node?_put_self ..),
                writeThrough_eq hnext (hrepo ▸ hnode), FileTree.put_put]
            · have hsame : writeThrough c.files (some root) db = c.files := by
                unfold writeThrough
                rw [hstore]
                dsimp only
                split
                · exact absurd ⟨_, ‹_›⟩ hnode
                · rfl
              rw [hsame]
  rw [put, put, hfiles, hrepo, SortedMap.insert_insert, put, hrepo]

/-- Adding files in turn to a database of a catalog is writing what comes of the database. -/
theorem foldlM_ingestFile_eval (c : Catalog) (db : Database) (files : List FactFile) (n : Nat) :
    (files.foldlM (fun added f => return added + (← ingestFile db.repo f)) n).eval (c.put db) =
      ((n + ·) <$> (db.ingestAll c.live files).2, c.put (db.ingestAll c.live files).1) := by
  induction files generalizing db n with
  | nil => rfl
  | cons f files ih =>
      have hdb : (c.put db).database db.repo = .ok db := by
        rw [database_ok_iff, get?_put, if_pos rfl]
      have hput := put_put c (db.ingest_repo c.live f) (db.ingest_sameKind c.live f)
      have hstep : (ingestFile db.repo f).eval (c.put db) =
          ((db.ingest c.live f).2, c.put (db.ingest c.live f).1) := by
        rw [ingestFile_eval, hdb]
        exact congrArg (Prod.mk _) hput
      rw [List.foldlM_cons, eval_bind, eval_bind, hstep]
      have hrepo := db.ingest_repo c.live f
      cases hingest : db.ingest c.live f with
      | mk next r =>
          rw [hingest] at hrepo
          cases r with
          | error e =>
              rw [Database.ingestAll_cons_error hingest]
              rfl
          | ok m =>
              have hrest := ih next (n + m)
              rw [hrepo] at hrest
              rw [Database.ingestAll_cons_ok hingest]
              refine hrest.trans (Prod.ext ?_ rfl)
              cases (next.ingestAll c.live files).2 with
              | error e => rfl
              | ok k => exact congrArg Except.ok (Nat.add_assoc n m k)

/-- Filling a database that was just written is writing what comes of it instead. -/
theorem ingest_put_eval (c : Catalog) (db : Database) (files : List FactFile) :
    (ingest db.repo files).eval (c.put db) =
      ((db.ingestAll c.live files).2, c.put (db.ingestAll c.live files).1) := by
  have hdb : (c.put db).database db.repo = .ok db := by
    rw [database_ok_iff, get?_put, if_pos rfl]
  have hfold := foldlM_ingestFile_eval c db files 0
  unfold ingest
  rw [eval_bind, eval_get]
  dsimp only
  rw [eval_bind, eval_discard, eval_lift, hdb]
  dsimp only
  rw [hfold]
  cases (db.ingestAll c.live files).2 with
  | error e => rfl
  | ok n => exact Prod.ext (congrArg Except.ok (Nat.zero_add n)) rfl

/-- Filling a database of a catalog is writing what comes of the database. -/
theorem ingest_eval (h : c.Filed) (hdb : c.database repo = .ok db) (files : List FactFile) :
    (ingest repo files).eval c =
      ((db.ingestAll c.live files).2, c.put (db.ingestAll c.live files).1) := by
  have hget := database_ok_iff.mp hdb
  obtain rfl := h.named repo db hget
  have hput := ingest_put_eval c db files
  rwa [put_self h hget] at hput

/-- Adding files is atomic for each file. A database that is not building stays as it is. If all
files can be added, the store is the one that they give in order, and the answer is how far its
next id moved. If one cannot, the facts are those of the files before it, as if these had been
added alone, and the database is incomplete. No other database changes. -/
theorem ingest_atomic (c : Catalog) (h : c.Filed) (repo : Repo) (db : Database)
    (hdb : c.database repo = .ok db) (files : List FactFile) (hfiles : files ≠ []) :
    ∃ r c', (ingest repo files).eval c = (r, c') ∧ OnlyAt repo c c' ∧
      (db.state ≠ .building → (∃ e, r = .error e) ∧ c' = c) ∧
      (db.state = .building → ∀ n, r = .ok n →
        ∃ next, c'.database repo = .ok next ∧ db.Fills c.live files next n) ∧
      (db.state = .building → ∀ e, r = .error e →
        ∃ before f after m c₁ mid next, files = before ++ f :: after ∧
          (ingest repo before).eval c = (.ok m, c₁) ∧ c₁.database repo = .ok mid ∧
          db.Fills c.live before mid m ∧ (ingestFile repo f).eval c₁ = (.error e, c') ∧
          c'.database repo = .ok next ∧ next.state = .incomplete ∧
          FactStore.SameFacts mid.store next.store) := by
  have hget := database_ok_iff.mp hdb
  obtain rfl := h.named repo db hget
  have hthere (next : Database) (hrepo : next.repo = db.repo) :
      (c.put next).database db.repo = .ok next := by
    rw [database_ok_iff, get?_put, if_pos hrepo.symm]
  rw [ingest_eval h hdb]
  by_cases hbuilding : db.state = .building
  · rcases Database.ingestAll_cases hbuilding c.live files with
      ⟨next, n, hall, hfills⟩ | ⟨before, f, mid, m, e, ⟨after, hsplit⟩, hadded, hfills, hfails, hall⟩
    · refine ⟨_, _, rfl, ?_, fun hnot => absurd hbuilding hnot, fun _ k hk => ?_, fun _ e he => ?_⟩
      · rw [hall, ← hfills.repo]
        exact onlyAt_put c next
      · rw [hall] at hk ⊢
        cases hk
        exact ⟨next, hthere next hfills.repo, hfills⟩
      · rw [hall] at he
        cases he
    · have hrepo := mid.ingest_repo c.live f
      have htried : (ingestFile db.repo f).eval (c.put mid) =
          ((mid.ingest c.live f).2, c.put (mid.ingest c.live f).1) := by
        rw [ingestFile_eval, hthere mid hfills.repo]
        exact congrArg (Prod.mk _) (put_put c hrepo (mid.ingest_sameKind c.live f))
      refine ⟨_, _, rfl, ?_, fun hnot => absurd hbuilding hnot, fun _ n hn => ?_, fun _ e' he => ?_⟩
      · rw [hall, ← hfills.repo, ← hrepo]
        exact onlyAt_put c _
      · rw [hall] at hn
        cases hn
      · rw [hall] at he ⊢
        cases he
        obtain ⟨hsame, hstate⟩ := Database.sameFacts_of_fails hfills.state hfails
        refine ⟨before, f, after, m, c.put mid, mid, _, hsplit, ?_, hthere mid hfills.repo, hfills,
          ?_, hthere _ (hrepo.trans hfills.repo), hstate, hsame⟩
        · rw [ingest_eval h hdb, hadded]
        · rw [htried, hfails]
  · obtain ⟨f, rest, rfl⟩ := List.exists_cons_of_ne_nil hfiles
    obtain ⟨e, hall⟩ := Database.ingestAll_of_not_building hbuilding c.live f rest
    rw [hall]
    refine ⟨_, _, rfl, onlyAt_put c db, fun _ => ⟨⟨e, rfl⟩, put_self h hget⟩, ?_, ?_⟩
    · exact fun hstate => absurd hstate hbuilding
    · exact fun hstate => absurd hstate hbuilding

/-- A build that has begun, of a schema whose facts can be nested. -/
def begunBuild : List Event :=
  [.op (.register "schema a.1 \x7b predicate P : string predicate Q : \x7b p : P, n : nat \x7d \x7d"),
    .op (.create "d" none)]

/-- A file that can be added, and one that fails after a fact that it defines in place. -/
def halfGoodFiles : List FactFile :=
  [⟨"f", [⟨"a.P", [⟨none, .string "x", none⟩]⟩]⟩,
    ⟨"g", [⟨"a.Q", [⟨none, .object [("p", .object [("key", .string "y")]), ("n", .string "z")], none⟩]⟩]⟩]

theorem ingest_atomic_halfGoodFiles :
    ∃ e c' next, (ingest ⟨"d", "0"⟩ halfGoodFiles).eval (emptyShelf.later begunBuild) = (.error e, c') ∧
      c'.database ⟨"d", "0"⟩ = .ok next ∧ next.state = .incomplete ∧
      FactStore.scan next.store ⟨"a.P", 1⟩ = [.first] := by
  have hallowed : emptyShelf.RunAllowed begunBuild := by
    refine ⟨trivial, ?_, trivial⟩
    unfold Event.Allowed
    decide +kernel
  have hsound := (later_spec emptyShelf_starts.sound hallowed).1
  have hdb : ((emptyShelf.later begunBuild).database ⟨"d", "0"⟩).toOption.any fun db =>
      db.state = .building := by
    decide +kernel
  have hfails :
      ((ingest ⟨"d", "0"⟩ halfGoodFiles).eval (emptyShelf.later begunBuild)).1.toOption = none := by
    decide +kernel
  have hscan : (((ingest ⟨"d", "0"⟩ halfGoodFiles).eval (emptyShelf.later begunBuild)).2.database
      ⟨"d", "0"⟩).toOption.any fun db => FactStore.scan db.store ⟨"a.P", 1⟩ = [.first] := by
    decide +kernel
  obtain ⟨db, hdb, hbuilding⟩ := (Option.any_eq_true ..).mp hdb
  obtain ⟨r, c', heval, -, -, -, hcut⟩ := ingest_atomic (emptyShelf.later begunBuild) hsound.filed
    ⟨"d", "0"⟩ db (Outcome.mem_toOption_iff.mp hdb) halfGoodFiles (by decide)
  rw [heval] at hfails hscan
  cases r with
  | ok n => cases hfails
  | error e =>
      obtain ⟨-, -, -, -, -, -, next, -, -, -, -, -, hnext, hstate, -⟩ :=
        hcut (by simpa using hbuilding) e rfl
      refine ⟨e, c', next, heval, hnext, hstate, ?_⟩
      dsimp only at hscan
      rw [hnext] at hscan
      simpa [Except.toOption] using hscan

end Catalog

end Factbase
