import Factbase.Proofs.Store.Disk

/-!
# Stores of either kind answer alike

What a store answers is determined by its log, its state and the schema
that was saved. So two stores that were given the same requests from the
beginning answer every request alike, whatever kind they are of: they
have the same log (`StoreSession.Twins`), and the batches that are open
on them are the same.

A store on disk may be closed and opened again between any two requests.
The batches stay, since they are not part of the store.
-/

namespace Factbase

open LawfulFactStore

/-! ## Requests and answers -/

/-- A request to a store on which batches are open. -/
inductive StoreRequest where
  | perform (op : StoreOp)
  | batch (i : Nat)
  | lookup (id : FactId)
  | get (id : FactId)
  | find (digest : Digest)
  | scan (p : Predicate)
  | seek (p : Predicate) (key : Value)
  | predicates
  | statistics
  | size
  | nextId
  | state
  | loadSchema
  /-- Close the store and open it again. -/
  | reopen

/-- What a store answers. An operation on a batch that is not open has no answer. -/
inductive StoreAnswer where
  | nothing
  | done (r : Except Error Unit)
  | staged (r : Except StagingFault FactId)
  | inserted (r : Except Error FactId)
  | batch (b : Option FactBatch)
  | lookup (f : Option Fact)
  | get (r : Except Error Fact)
  | found (id : Option FactId)
  | ids (ids : List FactId)
  | predicates (ps : List Predicate)
  | statistics (s : Statistics)
  | size (n : Nat)
  | nextId (id : FactId)
  | state (s : StoreState)
  | schema (bytes : Option Bytes)

namespace StoreRequest

/-- The content that a request brings. -/
def content? : StoreRequest → Option Content
  | .perform op => op.content?
  | _ => none

end StoreRequest

namespace StoreSession

variable {σ : Type} [FactStore σ]

/-- What an operation answers. -/
def result (w : StoreSession σ) : StoreOp → StoreAnswer
  | .openBatch _ | .copyBatch _ _ | .dropBatch _ | .setState _ | .saveSchema _ => .done (.ok ())
  | .stage i p key value =>
    match w.batches i with
    | none => .nothing
    | some b => .staged ((FactStore.stage w.store b p key value).map (·.2))
  | .commit i =>
    match w.batches i with
    | none => .nothing
    | some b => .done ((FactStore.commit w.store b).map fun _ => ())
  | .insert p key value => .inserted ((FactStore.insert w.store p key value).map (·.2))

/-- What a store answers to a request, and the session afterwards. A store that cannot be
opened again stays as it was. -/
def serve (reopen : σ → Except Error σ) (w : StoreSession σ) :
    StoreRequest → StoreAnswer × StoreSession σ
  | .perform op => (w.result op, w.step op)
  | .batch i => (.batch (w.batches i), w)
  | .lookup id => (.lookup (FactStore.lookup w.store id), w)
  | .get id => (.get (FactStore.get w.store id), w)
  | .find digest => (.found (FactStore.find w.store digest), w)
  | .scan p => (.ids (FactStore.scan w.store p), w)
  | .seek p key => (.ids (FactStore.seek w.store p key), w)
  | .predicates => (.predicates (FactStore.predicates w.store), w)
  | .statistics => (.statistics (FactStore.statistics w.store), w)
  | .size => (.size (FactStore.size w.store), w)
  | .nextId => (.nextId (FactStore.nextId w.store), w)
  | .state => (.state (FactStore.state w.store), w)
  | .loadSchema => (.schema (FactStore.loadSchema w.store), w)
  | .reopen =>
    match reopen w.store with
    | .ok s => (.done (.ok ()), { w with store := s })
    | .error e => (.done (.error e), w)

/-- The answers to requests in order, and the session afterwards. -/
def serveAll (reopen : σ → Except Error σ) (w : StoreSession σ) :
    List StoreRequest → List StoreAnswer × StoreSession σ
  | [] => ([], w)
  | r :: rs =>
    let (answer, w) := w.serve reopen r
    let (answers, w) := w.serveAll reopen rs
    (answer :: answers, w)

/-- A session on a store, with no batch open. -/
def on (s : σ) : StoreSession σ := ⟨s, fun _ => none⟩

/-! ## Sessions that go together -/

/-- Two sessions have the same log, state, schema and batches, and the batches can be
committed wherever they begin. -/
structure Twins (w : StoreSession MemoryStore) (v : StoreSession DiskStore) (log : List Fact) :
    Prop where
  left : Holds w.store log
  right : Holds v.store log
  state : FactStore.state w.store = FactStore.state v.store
  schema : FactStore.loadSchema w.store = FactStore.loadSchema v.store
  batches : w.batches = v.batches
  begun : ∀ i b, w.batches i = some b → (∃ n, b.Begins n) ∧ ∀ f ∈ b.facts, f.content.Fits

namespace Twins

variable {w : StoreSession MemoryStore} {v : StoreSession DiskStore} {log : List Fact}

theorem newBatch (h : Twins w v log) : FactStore.newBatch w.store = FactStore.newBatch v.store := by
  rw [FactStore.newBatch, FactStore.newBatch, nextId_eq h.left, nextId_eq h.right]

theorem stage (h : Twins w v log) (b : FactBatch) (p : Predicate) (k x : Value) :
    FactStore.stage w.store b p k x = FactStore.stage v.store b p k x := by
  dsimp only [FactStore.stage]
  rw [h.state, find_eq h.left, find_eq h.right]

/-- A commit is accepted by both or refused by both, and then both have the longer log. -/
theorem commit (h : Twins w v log) {b : FactBatch} (hb : ∃ n, b.Begins n)
    (hfits : ∀ f ∈ b.facts, f.content.Fits) :
    (∃ e, FactStore.commit w.store b = .error e ∧ FactStore.commit v.store b = .error e) ∨
    ∃ s t, FactStore.commit w.store b = .ok s ∧ FactStore.commit v.store b = .ok t ∧
      Twins { w with store := s } { v with store := t } (log ++ b.facts) := by
  have hsame : b.checkCommit (FactStore.nextId w.store) (FactStore.state w.store) =
      b.checkCommit (FactStore.nextId v.store) (FactStore.state v.store) := by
    rw [h.state, nextId_eq h.left, nextId_eq h.right]
  cases hcheck : b.checkCommit (FactStore.nextId w.store) (FactStore.state w.store) with
  | error e => exact .inl ⟨e, commit_error hcheck, commit_error (hsame ▸ hcheck)⟩
  | ok u =>
      obtain ⟨n, hn⟩ := hb
      have hbase : b.base = .nth log.length :=
        (FactBatch.checkCommit_ok_iff.mp hcheck).2.trans (nextId_eq h.left)
      have hfrom := hn.from_of_base hbase
      obtain ⟨s, hs, hholds, hstate, hschema⟩ := commit_ok h.left hfrom (fun _ _ => trivial) hcheck
      obtain ⟨t, ht, hholds', hstate', hschema'⟩ := commit_ok h.right hfrom hfits (hsame ▸ hcheck)
      refine .inr ⟨s, t, hs, ht, hholds, hholds', ?_, ?_, h.batches, h.begun⟩
      · rw [hstate, hstate', h.state]
      · rw [hschema, hschema', h.schema]

theorem hold (h : Twins w v log) (i : Nat) {b : Option FactBatch}
    (hb : ∀ b' ∈ b, (∃ n, b'.Begins n) ∧ ∀ f ∈ b'.facts, f.content.Fits) :
    Twins (w.hold i b) (v.hold i b) log where
  left := h.left
  right := h.right
  state := h.state
  schema := h.schema
  batches := by
    unfold StoreSession.hold
    rw [h.batches]
  begun j b' hj := by
    unfold StoreSession.hold at hj
    dsimp only at hj
    split at hj
    · exact hb b' hj
    · exact h.begun j b' hj

theorem new (h : Twins w v log) : ∃ n, (FactStore.newBatch w.store).Begins n := by
  rw [FactStore.newBatch, nextId_eq h.left]
  exact ⟨_, .startingAt _⟩

/-- Inserting a fact is staging it in a batch of its own and committing that. -/
theorem insert_eq {s : σ} {p : Predicate} {k x : Value} :
    FactStore.insert s p k x =
      match FactStore.stage s (FactStore.newBatch s) p k x with
      | .error e => .error (.staging e)
      | .ok (b, id) => (FactStore.commit s b).map (·, id) := by
  unfold FactStore.insert
  cases FactStore.stage s (FactStore.newBatch s) p k x with
  | error e => rfl
  | ok r =>
      obtain ⟨b, id⟩ := r
      show (FactStore.commit s b >>= fun s' => .ok (s', id)) = (FactStore.commit s b).map (·, id)
      cases FactStore.commit s b <;> rfl

theorem insert (h : Twins w v log) {p : Predicate} {k x : Value} (hfits : Content.Fits (p, k, x)) :
    w.result (.insert p k x) = v.result (.insert p k x) ∧
      ∃ more, Twins (w.step (.insert p k x)) (v.step (.insert p k x)) (log ++ more) := by
  have hsame : Twins w v (log ++ []) := by rwa [List.append_nil]
  simp only [result, step, insert_eq, ← h.newBatch, ← h.stage]
  cases hstage : FactStore.stage w.store (FactStore.newBatch w.store) p k x with
  | error e => exact ⟨rfl, [], hsame⟩
  | ok r =>
      obtain ⟨b, id⟩ := r
      have hnone : ∀ f ∈ (FactStore.newBatch w.store).facts, f.content.Fits :=
        fun f hf => by simp [FactStore.newBatch, FactBatch.startingAt, FactBatch.facts] at hf
      obtain ⟨n, hn⟩ := h.new
      rcases h.commit ⟨n, hn.stage hstage⟩ (forall_facts_stage hnone hfits hstage) with
        ⟨e, hw, hv⟩ | ⟨s, t, hw, hv, htwins⟩
      · simp only [hw, hv]
        exact ⟨rfl, [], hsame⟩
      · simp only [hw, hv]
        exact ⟨rfl, b.facts, htwins⟩

/-- An operation has the same result in both sessions and keeps them together. -/
theorem perform (h : Twins w v log) (op : StoreOp) (hfits : ∀ c ∈ op.content?, c.Fits) :
    w.result op = v.result op ∧ ∃ more, Twins (w.step op) (v.step op) (log ++ more) := by
  have hsame : Twins w v (log ++ []) := by rwa [List.append_nil]
  have hnone : ∀ b' ∈ (none : Option FactBatch),
      (∃ n, b'.Begins n) ∧ ∀ f ∈ b'.facts, f.content.Fits := fun _ hb => by cases hb
  cases op with
  | openBatch i =>
      refine ⟨rfl, [], ?_⟩
      simp only [step, ← h.newBatch]
      refine hsame.hold i fun b hb => ?_
      obtain rfl := Option.some.inj hb
      refine ⟨h.new, fun f hf => ?_⟩
      simp [FactStore.newBatch, FactBatch.startingAt, FactBatch.facts] at hf
  | copyBatch i j =>
      refine ⟨rfl, [], ?_⟩
      simp only [step, ← h.batches]
      exact hsame.hold j fun b hb => h.begun i b hb
  | dropBatch i => exact ⟨rfl, [], hsame.hold i hnone⟩
  | setState state =>
      refine ⟨rfl, [], holds_setState state hsame.left, holds_setState state hsame.right, ?_, ?_,
        h.batches, h.begun⟩
      · simp only [step, state_setState]
      · simp only [step, loadSchema_setState, h.schema]
  | saveSchema bytes =>
      refine ⟨rfl, [], holds_saveSchema bytes hsame.left, holds_saveSchema bytes hsame.right, ?_, ?_,
        h.batches, h.begun⟩
      · simp only [step, state_saveSchema, h.state]
      · simp only [step, loadSchema_saveSchema]
  | stage i p k x =>
      simp only [result, step, ← h.batches]
      cases hb : w.batches i with
      | none => exact ⟨rfl, [], hsame⟩
      | some b =>
          simp only [← h.stage]
          cases hstage : FactStore.stage w.store b p k x with
          | error e => exact ⟨trivial, [], hsame⟩
          | ok r =>
              obtain ⟨b', id⟩ := r
              obtain ⟨⟨n, hn⟩, hold⟩ := h.begun i b hb
              refine ⟨trivial, [], hsame.hold i fun b'' hb'' => ?_⟩
              obtain rfl := Option.some.inj hb''
              exact ⟨⟨n, hn.stage hstage⟩, forall_facts_stage hold (hfits _ rfl) hstage⟩
  | commit i =>
      simp only [result, step, ← h.batches]
      cases hb : w.batches i with
      | none => exact ⟨rfl, [], hsame⟩
      | some b =>
          obtain ⟨hbegins, hold⟩ := h.begun i b hb
          rcases h.commit hbegins hold with ⟨e, hw, hv⟩ | ⟨s, t, hw, hv, htwins⟩
          · simp only [hw, hv]
            exact ⟨rfl, [], hsame.hold i hnone⟩
          · simp only [hw, hv]
            exact ⟨rfl, b.facts, htwins.hold i hnone⟩
  | insert p k x => exact h.insert (hfits _ rfl)

/-- A request has the same answer in both sessions and keeps them together. -/
theorem serve (h : Twins w v log) (r : StoreRequest) (hfits : ∀ c ∈ r.content?, c.Fits)
    (hroom : log.length < 2 ^ 64 - 1024) :
    (w.serve .ok r).1 = (v.serve DiskStore.reopen r).1 ∧
      ∃ more, Twins (w.serve .ok r).2 (v.serve DiskStore.reopen r).2 (log ++ more) := by
  have hsame : ∃ more, Twins w v (log ++ more) := ⟨[], by rwa [List.append_nil]⟩
  cases r with
  | perform op =>
      obtain ⟨hresult, htwins⟩ := h.perform op hfits
      exact ⟨hresult, htwins⟩
  | batch i => exact ⟨by simp only [StoreSession.serve, h.batches], hsame⟩
  | lookup id => exact ⟨by simp only [StoreSession.serve, lookup_eq h.left, lookup_eq h.right], hsame⟩
  | get id =>
      exact ⟨by simp only [StoreSession.serve, FactStore.get, lookup_eq h.left, lookup_eq h.right], hsame⟩
  | find digest => exact ⟨by simp only [StoreSession.serve, find_eq h.left, find_eq h.right], hsame⟩
  | scan p => exact ⟨by simp only [StoreSession.serve, scan_eq h.left, scan_eq h.right], hsame⟩
  | seek p k => exact ⟨by simp only [StoreSession.serve, seek_eq h.left, seek_eq h.right], hsame⟩
  | predicates =>
      exact ⟨by simp only [StoreSession.serve, predicates_eq h.left, predicates_eq h.right], hsame⟩
  | statistics =>
      exact ⟨by simp only [StoreSession.serve, statistics_eq h.left, statistics_eq h.right], hsame⟩
  | size => exact ⟨by simp only [StoreSession.serve, size_eq h.left, size_eq h.right], hsame⟩
  | nextId => exact ⟨by simp only [StoreSession.serve, nextId_eq h.left, nextId_eq h.right], hsame⟩
  | state => exact ⟨by simp only [StoreSession.serve, h.state], hsame⟩
  | loadSchema => exact ⟨by simp only [StoreSession.serve, h.schema], hsame⟩
  | reopen =>
      simp only [StoreSession.serve, h.right.1.reopen hroom h.right.2]
      exact ⟨trivial, hsame⟩

end Twins

/-! ## Runs -/

/-- No request makes the number of facts smaller. -/
theorem size_le_serveAll (w : StoreSession MemoryStore) (rs : List StoreRequest) :
    FactStore.size w.store ≤ FactStore.size (w.serveAll .ok rs).2.store := by
  induction rs generalizing w with
  | nil => exact Nat.le_refl _
  | cons r rs ih =>
      refine Nat.le_trans ?_ (ih (w.serve .ok r).2)
      cases r with
      | perform op => exact size_le_step w op
      | _ => exact Nat.le_refl _

/-- Requests have the same answers in both sessions and keep them together. -/
theorem Twins.serveAll {w : StoreSession MemoryStore} {v : StoreSession DiskStore} {log : List Fact}
    (h : Twins w v log) (rs : List StoreRequest) (hfits : ∀ r ∈ rs, ∀ c ∈ r.content?, c.Fits)
    (hroom : FactStore.size (w.serveAll .ok rs).2.store < 2 ^ 64 - 1024) :
    (w.serveAll .ok rs).1 = (v.serveAll DiskStore.reopen rs).1 ∧
      ∃ more, Twins (w.serveAll .ok rs).2 (v.serveAll DiskStore.reopen rs).2 (log ++ more) := by
  induction rs generalizing w v log with
  | nil => exact ⟨rfl, [], by rwa [List.append_nil]⟩
  | cons r rs ih =>
      obtain ⟨hr, hrs⟩ := List.forall_mem_cons.mp hfits
      have hlen : log.length < 2 ^ 64 - 1024 := by
        have hsize := size_eq h.left
        have hle := size_le_serveAll w (r :: rs)
        omega
      obtain ⟨hanswer, more, htwins⟩ := h.serve r hr hlen
      obtain ⟨hanswers, more', hrest⟩ := ih htwins hrs hroom
      refine ⟨?_, more ++ more', by rwa [← List.append_assoc]⟩
      simp only [StoreSession.serveAll, hanswer, hanswers]

/-- Stores in memory and on disk give the same answers to any requests, with the disk store
closed and opened again wherever that is asked for. At the end the store on disk is the one
that its tables give, with the index that is rebuilt from them. -/
theorem serveAll_memory_eq_disk (rs : List StoreRequest)
    (hfits : ∀ r ∈ rs, ∀ c ∈ r.content?, c.Fits)
    (hroom : FactStore.size ((on MemoryStore.empty).serveAll .ok rs).2.store < 2 ^ 64 - 1024) :
    ((on MemoryStore.empty).serveAll .ok rs).1 =
      ((on DiskStore.empty).serveAll DiskStore.reopen rs).1 ∧
    DiskStore.ofTables ((on DiskStore.empty).serveAll DiskStore.reopen rs).2.store.tables =
      .ok ((on DiskStore.empty).serveAll DiskStore.reopen rs).2.store := by
  have hstart : Twins (on MemoryStore.empty) (on DiskStore.empty) [] :=
    ⟨holds_empty, holds_empty, rfl, rfl, rfl, fun _ _ h => by cases h⟩
  obtain ⟨hanswers, log, htwins⟩ := hstart.serveAll rs hfits hroom
  rw [List.nil_append] at htwins
  have hlen : log.length < 2 ^ 64 - 1024 := by
    have hsize := size_eq htwins.left
    omega
  exact ⟨hanswers, htwins.right.1.reopen hlen htwins.right.2⟩

/-- A batch that is filled before the store is opened again and committed afterwards, another
one that is stale by then, an empty one, and a store that is sealed. -/
def reopenings : List StoreRequest :=
  [.perform (.openBatch 0), .perform (.openBatch 1), .perform (.stage 0 ⟨"item", 1⟩ (.string "a") .unit),
    .reopen, .perform (.stage 0 ⟨"tag", 1⟩ (.fact .first) .unit), .perform (.commit 0),
    .perform (.stage 1 ⟨"item", 1⟩ (.string "b") .unit), .perform (.commit 1), .reopen,
    .perform (.openBatch 2), .perform (.commit 2), .perform (.saveSchema [7]),
    .perform (.insert ⟨"item", 1⟩ (.string "a") .unit), .perform (.insert ⟨"item", 1⟩ (.fact ⟨9⟩) .unit),
    .perform (.setState .complete), .reopen, .perform (.insert ⟨"item", 1⟩ (.nat 3) .unit),
    .scan ⟨"tag", 1⟩, .seek ⟨"item", 1⟩ (.string "a"), .lookup .first, .get ⟨7⟩, .statistics, .nextId,
    .state, .loadSchema]

theorem serveAll_memory_eq_disk_reopenings :
    ((on MemoryStore.empty).serveAll .ok reopenings).1 =
      ((on DiskStore.empty).serveAll DiskStore.reopen reopenings).1 ∧
    DiskStore.ofTables ((on DiskStore.empty).serveAll DiskStore.reopen reopenings).2.store.tables =
      .ok ((on DiskStore.empty).serveAll DiskStore.reopen reopenings).2.store :=
  serveAll_memory_eq_disk reopenings (by decide +kernel) (by decide +kernel)

end StoreSession

end Factbase
