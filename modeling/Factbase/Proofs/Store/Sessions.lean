import Factbase.Proofs.Store.Batches

/-!
# What a store answers

A session is a store and the batches that are open on it. Its operations
can come in any order: batches are opened, copied, filled, committed and
dropped, single facts are inserted and the state is set to anything. An
operation that fails leaves the store as it was.

`StoreSession.run_consistent` says what the store answers after any number
of them. It needs that the hash tells apart what the session met, and that
the store did not run out of ids.
-/

namespace Factbase

/-! ## Operations -/

/-- An operation on a store. Batches go by number. -/
inductive StoreOp where
  | openBatch (batch : Nat)
  | copyBatch (batch copy : Nat)
  | stage (batch : Nat) (p : Predicate) (key value : Value)
  | commit (batch : Nat)
  | dropBatch (batch : Nat)
  | insert (p : Predicate) (key value : Value)
  | setState (state : StoreState)
  | saveSchema (bytes : Bytes)

/-- The content that an operation brings. -/
def StoreOp.content? : StoreOp → Option Content
  | .stage _ p key value | .insert p key value => some (p, key, value)
  | _ => none

/-- A store and the batches that are open on it. -/
structure StoreSession (σ : Type) where
  store : σ
  batches : Nat → Option FactBatch

namespace StoreSession

variable {σ : Type} [FactStore σ]

/-- Hold a batch, or none, under a number. -/
def hold (w : StoreSession σ) (i : Nat) (b : Option FactBatch) : StoreSession σ :=
  { w with batches := fun j => if j = i then b else w.batches j }

/-- One operation. A commit uses its batch up, whether it goes through or not. -/
def step (w : StoreSession σ) : StoreOp → StoreSession σ
  | .openBatch i => w.hold i (some (FactStore.newBatch w.store))
  | .copyBatch i j => w.hold j (w.batches i)
  | .stage i p key value =>
    match w.batches i with
    | none => w
    | some b =>
      match FactStore.stage w.store b p key value with
      | .ok (b', _) => w.hold i (some b')
      | .error _ => w
  | .commit i =>
    match w.batches i with
    | none => w
    | some b =>
      match FactStore.commit w.store b with
      | .ok s => { w.hold i none with store := s }
      | .error _ => w.hold i none
  | .dropBatch i => w.hold i none
  | .insert p key value =>
    match FactStore.insert w.store p key value with
    | .ok (s, _) => { w with store := s }
    | .error _ => w
  | .setState state => { w with store := FactStore.setState w.store state }
  | .saveSchema bytes => { w with store := FactStore.saveSchema w.store bytes }

/-- Operations in order. -/
def run (w : StoreSession σ) (ops : List StoreOp) : StoreSession σ := ops.foldl step w

variable [LawfulFactStore σ]

/-- A session on a new store. -/
def new : StoreSession σ := ⟨LawfulFactStore.empty, fun _ => none⟩

end StoreSession

/-! ## Answers -/

/-- The committed facts, in the order of their ids. -/
def FactStore.committed {σ : Type} [FactStore σ] (s : σ) : List Fact :=
  (FactStore.ids s).filterMap (FactStore.lookup s)

/-- The answers of a store agree with each other. Of digests only those count whose
contents were met. -/
structure Consistent {σ : Type} [FactStore σ] (met : Content → Prop) (s : σ) : Prop where
  /-- The ids go from the first one up to the next one, without a gap. -/
  lookup_isSome : ∀ id, (FactStore.lookup s id).isSome ↔
    FactId.first.number ≤ id.number ∧ id.number < (FactStore.nextId s).number
  lookup_id : ∀ id f, FactStore.lookup s id = some f → f.id = id
  /-- Equal facts are one fact. -/
  distinct : ∀ i j f g, FactStore.lookup s i = some f → FactStore.lookup s j = some g →
    f.content = g.content → i = j
  references : ∀ id f, FactStore.lookup s id = some f → ∀ r ∈ f.references, id.RefersTo r
  scan_ascending : ∀ p, (FactStore.scan s p).Pairwise (·.number < ·.number)
  mem_scan : ∀ p id, id ∈ FactStore.scan s p ↔
    ∃ f, FactStore.lookup s id = some f ∧ f.predicate = p
  seek_ascending : ∀ p k, (FactStore.seek s p k).Pairwise (·.number < ·.number)
  mem_seek : ∀ p k v, met (p, k, v) → ∀ id, id ∈ FactStore.seek s p k ↔
    ∃ f, FactStore.lookup s id = some f ∧ f.predicate = p ∧ f.key = k
  find_iff : ∀ p k v, met (p, k, v) → ∀ id, FactStore.find s (contentDigest p k v) = some id ↔
    ∃ f, FactStore.lookup s id = some f ∧ f.content = (p, k, v)
  predicates_ascending : (FactStore.predicates s).Pairwise (compare · · = .lt)
  mem_predicates : ∀ p, p ∈ FactStore.predicates s ↔
    ∃ id f, FactStore.lookup s id = some f ∧ f.predicate = p
  size_eq : FactStore.size s = (FactStore.committed s).length
  /-- The statistics are those of a recount; a sum of sizes stops at 64 bits. -/
  statistics : ∀ p, (FactStore.statistics s).tallies.get? p =
    let facts := (FactStore.committed s).filter (·.predicate = p)
    if facts = [] then none
    else some ⟨facts.length, min (facts.map FactIndex.encodedSize).sum (2 ^ 64 - 1)⟩

section Answers

variable {σ : Type} [FactStore σ] [LawfulFactStore σ]
variable {met : Content → Prop} {s : σ} {log : List Fact}

open LawfulFactStore

/-- While there are ids left a lookup finds the facts of the log, each by its id. -/
theorem lookup_eq_some_iff (hholds : Holds s log) (hroom : log.length < 2 ^ 64 - 1024)
    {id : FactId} {f : Fact} : FactStore.lookup s id = some f ↔ f ∈ log ∧ f.id = id := by
  rw [lookup_eq hholds]
  constructor
  · intro hfind
    exact ⟨List.mem_reverse.mp (List.mem_of_find?_eq_some hfind),
      by simpa using List.find?_some hfind⟩
  · rintro ⟨hf, hid⟩
    obtain ⟨g, hfind⟩ : ∃ g, log.reverse.find? (·.id = id) = some g := by
      rw [← Option.isSome_iff_exists, List.find?_isSome]
      exact ⟨f, List.mem_reverse.mpr hf, by simpa using hid⟩
    have hg : g ∈ log := List.mem_reverse.mp (List.mem_of_find?_eq_some hfind)
    have hgid : g.id = id := by simpa using List.find?_some hfind
    rw [hfind, (numbered hholds).id_inj hroom hg hf (hgid.trans hid.symm)]

theorem lookup_isSome_iff (hholds : Holds s log) (hroom : log.length < 2 ^ 64 - 1024)
    (id : FactId) : (FactStore.lookup s id).isSome ↔
      FactId.first.number ≤ id.number ∧ id.number < (FactStore.nextId s).number := by
  rw [Option.isSome_iff_exists, nextId_eq hholds]
  constructor
  · rintro ⟨f, hf⟩
    obtain ⟨hmem, rfl⟩ := (lookup_eq_some_iff hholds hroom).mp hf
    obtain ⟨n, hn, -, hid⟩ := (numbered hholds).mem_id hmem
    rw [hid]
    refine ⟨FactId.first_le_nth n, ?_⟩
    rw [UInt64.lt_iff_toNat_lt, FactId.toNat_nth, FactId.toNat_nth]
    omega
  · rintro ⟨hfirst, hlt⟩
    obtain ⟨n, hn, rfl⟩ := FactId.exists_nth_of_lt hfirst hlt
    have hget : log[n]? = some log[n] := List.getElem?_eq_getElem hn
    exact ⟨log[n], (lookup_eq_some_iff hholds hroom).mpr
      ⟨List.getElem_mem hn, numbered hholds n _ hget⟩⟩

theorem ids_eq (hholds : Holds s log) (hroom : log.length < 2 ^ 64 - 1024) :
    FactStore.ids s = (List.range log.length).map FactId.nth := by
  have hfirst : FactId.first.number.toNat = 1024 := rfl
  have hlen : (FactId.nth log.length).number.toNat - FactId.first.number.toNat = log.length := by
    rw [FactId.toNat_nth]
    omega
  rw [FactStore.ids, nextId_eq hholds, FactId.upTo, hlen]
  refine List.map_congr_left fun i hi => ?_
  have hi := List.mem_range.mp hi
  rw [FactId.nth, Nat.min_eq_left (by omega), hfirst]

theorem ids_eq_map (hholds : Holds s log) (hroom : log.length < 2 ^ 64 - 1024) :
    FactStore.ids s = log.map (·.id) := by
  rw [ids_eq hholds hroom]
  refine List.ext_getElem (by simp) fun i hi hi' => ?_
  have hlt : i < log.length := by simpa using hi'
  rw [List.getElem_map, List.getElem_map, List.getElem_range]
  exact (numbered hholds i _ (List.getElem?_eq_getElem hlt)).symm

/-- The committed facts are the log. -/
theorem committed_eq (hholds : Holds s log) (hroom : log.length < 2 ^ 64 - 1024) :
    FactStore.committed s = log := by
  have hlookup : ∀ i ∈ List.range log.length, (FactStore.lookup s ∘ FactId.nth) i = log[i]? := by
    intro i hi
    have hlt : i < log.length := List.mem_range.mp hi
    have hget : log[i]? = some log[i] := List.getElem?_eq_getElem hlt
    rw [hget, Function.comp_apply, lookup_eq_some_iff hholds hroom]
    exact ⟨List.getElem_mem hlt, numbered hholds i _ hget⟩
  rw [FactStore.committed, ids_eq hholds hroom, List.filterMap_map,
    List.filterMap_congr hlookup]
  clear hlookup hroom hholds
  induction log using List.reverseRecOn with
  | nil => rfl
  | append_singleton log f ih =>
      have hinit : ∀ i ∈ List.range log.length, (log ++ [f])[i]? = log[i]? := fun i hi =>
        List.getElem?_append_left (List.mem_range.mp hi)
      rw [List.length_append, List.length_singleton, List.range_succ, List.filterMap_append,
        List.filterMap_congr hinit, ih]
      simp

/-- Facts stand in the log in the order of their ids. -/
theorem Numbered.pairwise (hnum : Numbered log) (hroom : log.length < 2 ^ 64 - 1024) :
    log.Pairwise (·.id.number < ·.id.number) := by
  rw [List.pairwise_iff_getElem]
  intro i j hi hj hlt
  rw [hnum i _ (List.getElem?_eq_getElem hi), hnum j _ (List.getElem?_eq_getElem hj)]
  exact (FactId.nth_lt_nth (by omega)).mpr hlt

/-- A store that holds a sound log answers consistently. -/
theorem consistent_of_sound (hholds : Holds s log) (hsound : Sound met log)
    (hfree : Collisionless met) (hroom : log.length < 2 ^ 64 - 1024) : Consistent met s where
  lookup_isSome := lookup_isSome_iff hholds hroom
  lookup_id id f hf := ((lookup_eq_some_iff hholds hroom).mp hf).2
  distinct i j f g hf hg heq := by
    obtain ⟨hfmem, rfl⟩ := (lookup_eq_some_iff hholds hroom).mp hf
    obtain ⟨hgmem, rfl⟩ := (lookup_eq_some_iff hholds hroom).mp hg
    rw [hsound.content_inj hfmem hgmem heq]
  references id f hf := by
    obtain ⟨hfmem, rfl⟩ := (lookup_eq_some_iff hholds hroom).mp hf
    exact hsound.ordered.references f hfmem
  scan_ascending p := by
    rw [scan_eq hholds, FactIndex.scan_ofFacts, List.pairwise_map]
    exact (hsound.ordered.numbered.pairwise hroom).filter _
  mem_scan p id := by
    simp only [scan_eq hholds, FactIndex.scan_ofFacts, List.mem_map, List.mem_filter,
      decide_eq_true_eq, lookup_eq_some_iff hholds hroom]
    exact ⟨fun ⟨f, ⟨hf, hp⟩, hid⟩ => ⟨f, ⟨hf, hid⟩, hp⟩, fun ⟨f, ⟨hf, hid⟩, hp⟩ => ⟨f, ⟨hf, hp⟩, hid⟩⟩
  seek_ascending p k := by
    rw [seek_eq hholds, FactIndex.seek_ofFacts, List.pairwise_map]
    exact (hsound.ordered.numbered.pairwise hroom).filter _
  mem_seek p k v hmet id := by
    rw [seek_eq hholds, hsound.mem_seek_iff hfree hmet]
    simp only [lookup_eq_some_iff hholds hroom]
    exact ⟨fun ⟨f, hf, hp, hk, hid⟩ => ⟨f, ⟨hf, hid⟩, hp, hk⟩,
      fun ⟨f, ⟨hf, hid⟩, hp, hk⟩ => ⟨f, hf, hp, hk, hid⟩⟩
  find_iff p k v hmet id := by
    rw [find_eq hholds, hsound.find_iff hfree.content hmet]
    simp only [lookup_eq_some_iff hholds hroom]
    exact ⟨fun ⟨f, hf, hc, hid⟩ => ⟨f, ⟨hf, hid⟩, hc⟩, fun ⟨f, ⟨hf, hid⟩, hc⟩ => ⟨f, hf, hc, hid⟩⟩
  predicates_ascending := by
    rw [predicates_eq hholds]
    exact SortedMap.keys_pairwise _
  mem_predicates p := by
    rw [predicates_eq hholds, FactIndex.mem_predicates_ofFacts]
    simp only [lookup_eq_some_iff hholds hroom]
    exact ⟨fun ⟨f, hf, hp⟩ => ⟨f.id, f, ⟨hf, rfl⟩, hp⟩, fun ⟨_, f, ⟨hf, _⟩, hp⟩ => ⟨f, hf, hp⟩⟩
  size_eq := by
    rw [size_eq hholds, committed_eq hholds hroom]
    omega
  statistics p := by
    rw [statistics_eq hholds, FactIndex.stats_ofFacts, committed_eq hholds hroom]
    have hle := List.length_filter_le (fun f : Fact => decide (f.predicate = p)) log
    dsimp only
    rw [FactIndex.tally, Nat.min_eq_left (by omega)]

end Answers

/-! ## Sessions -/

namespace StoreSession

variable {σ : Type} [FactStore σ] [LawfulFactStore σ] {met : Content → Prop}

open LawfulFactStore

/-- The store of a session holds a sound log, which every open batch fits. -/
structure Good (met : Content → Prop) (w : StoreSession σ) (log : List Fact) : Prop where
  holds : Holds w.store log
  sound : Sound met log
  fits : ∀ i b, w.batches i = some b → b.Fits met log

namespace Good

variable {w : StoreSession σ} {log : List Fact}

theorem new : Good met (new : StoreSession σ) [] :=
  ⟨holds_empty, .nil, fun _ _ h => by cases h⟩

theorem hold (h : Good met w log) (i : Nat) {b : Option FactBatch}
    (hb : ∀ b' ∈ b, b'.Fits met log) : Good met (w.hold i b) log where
  holds := h.holds
  sound := h.sound
  fits j b' hj := by
    unfold StoreSession.hold at hj
    dsimp only at hj
    split at hj
    · exact hb b' hj
    · exact h.fits j b' hj

/-- The store may hold a longer log; the batches stay. -/
theorem extend (h : Good met w log) {s : σ} {more : List Fact} (hholds : Holds s (log ++ more))
    (hsound : Sound met (log ++ more)) : Good met { w with store := s } (log ++ more) :=
  ⟨hholds, hsound, fun i b hb => (h.fits i b hb).append more⟩

end Good

omit [LawfulFactStore σ] in
/-- A fact that was inserted was staged in a new batch, which was committed. -/
theorem insert_ok {s s' : σ} {p : Predicate} {k v : Value} {id : FactId}
    (h : FactStore.insert s p k v = .ok (s', id)) :
    ∃ b, FactStore.stage s (FactStore.newBatch s) p k v = .ok (b, id) ∧
      FactStore.commit s b = .ok s' := by
  unfold FactStore.insert at h
  cases hstage : FactStore.stage s (FactStore.newBatch s) p k v with
  | error e =>
      rw [hstage] at h
      cases h
  | ok r =>
      obtain ⟨b, id'⟩ := r
      rw [hstage] at h
      cases hcommit : FactStore.commit s b with
      | error e =>
          simp [Except.mapError, hcommit, bind, Except.bind] at h
      | ok t =>
          simp [Except.mapError, hcommit, bind, Except.bind, pure, Except.pure] at h
          obtain ⟨rfl, rfl⟩ := h
          exact ⟨b, rfl, hcommit⟩

/-- No operation makes the number of facts smaller. -/
theorem size_le_step (w : StoreSession σ) (op : StoreOp) :
    FactStore.size w.store ≤ FactStore.size (w.step op).store := by
  cases op with
  | openBatch | copyBatch | dropBatch => exact Nat.le_refl _
  | setState state => exact Nat.le_of_eq (size_setState w.store state).symm
  | saveSchema bytes => exact Nat.le_of_eq (size_saveSchema w.store bytes).symm
  | stage i p k v =>
      unfold step
      dsimp only
      split
      · exact Nat.le_refl _
      · split <;> exact Nat.le_refl _
  | commit i =>
      unfold step
      dsimp only
      split
      · exact Nat.le_refl _
      · split
        · exact size_le_commit ‹_›
        · exact Nat.le_refl _
  | insert p k v =>
      unfold step
      dsimp only
      split
      · rename_i hinsert
        obtain ⟨b, -, hcommit⟩ := insert_ok hinsert
        exact size_le_commit hcommit
      · exact Nat.le_refl _

theorem size_le_run (w : StoreSession σ) (ops : List StoreOp) :
    FactStore.size w.store ≤ FactStore.size (w.run ops).store := by
  induction ops generalizing w with
  | nil => exact Nat.le_refl _
  | cons op ops ih => exact Nat.le_trans (size_le_step w op) (ih (w.step op))

/-- One operation keeps a session good and makes its log longer, if anything. -/
theorem good_step {w : StoreSession σ} {log : List Fact} (h : Good met w log)
    (hfree : Collisionless met) (hkeeps : ∀ c, met c → Keeps σ c) (op : StoreOp)
    (hmet : ∀ c ∈ op.content?, met c) (hroom : FactStore.size w.store < 2 ^ 64 - 1024) :
    ∃ more, Good met (w.step op) (log ++ more) := by
  have hsame : Good met w (log ++ []) := by simpa using h
  have hlen : log.length < 2 ^ 64 - 1024 := by
    have := size_eq h.holds
    omega
  have hnew : (FactStore.newBatch w.store).Fits met log := by
    rw [FactStore.newBatch, nextId_eq h.holds]
    exact .of_continues (.startingAt h.sound)
  have hused : ∀ i, Good met (w.hold i none) log := fun i => h.hold i fun _ hb => by cases hb
  cases op with
  | openBatch i =>
      exact ⟨[], by simpa [step] using h.hold i fun b hb => Option.some.inj hb ▸ hnew⟩
  | copyBatch i j => exact ⟨[], by simpa [step] using h.hold j fun b hb => h.fits i b hb⟩
  | dropBatch i => exact ⟨[], by simpa [step] using hused i⟩
  | stage i p k v =>
      unfold step
      dsimp only
      split
      · exact ⟨[], hsame⟩
      · rename_i b hb
        split
        · rename_i b' id hstage
          have hfits := fits_stage h.holds h.sound hfree.content (h.fits i b hb) (hmet _ rfl) hstage
          exact ⟨[], by simpa using h.hold i fun b hb => Option.some.inj hb ▸ hfits⟩
        · exact ⟨[], hsame⟩
  | commit i =>
      unfold step
      dsimp only
      split
      · exact ⟨[], hsame⟩
      · rename_i b hb
        split
        · rename_i s hcommit
          obtain ⟨hholds, hsound⟩ := commit_sound h.holds hkeeps hlen (h.fits i b hb) hcommit
          exact ⟨b.facts, (hused i).extend hholds hsound⟩
        · exact ⟨[], by simpa using hused i⟩
  | insert p k v =>
      unfold step
      dsimp only
      split
      · rename_i s id hinsert
        obtain ⟨b, hstage, hcommit⟩ := insert_ok hinsert
        have hfits := fits_stage h.holds h.sound hfree.content hnew (hmet _ rfl) hstage
        obtain ⟨hholds, hsound⟩ := commit_sound h.holds hkeeps hlen hfits hcommit
        exact ⟨b.facts, h.extend hholds hsound⟩
      · exact ⟨[], hsame⟩
  | setState state =>
      refine ⟨[], h.extend ?_ ?_⟩
      · simpa using holds_setState state h.holds
      · simpa using h.sound
  | saveSchema bytes =>
      refine ⟨[], h.extend ?_ ?_⟩
      · simpa using holds_saveSchema bytes h.holds
      · simpa using h.sound

/-- A run keeps a session good. -/
theorem good_run {w : StoreSession σ} {log : List Fact} (h : Good met w log)
    (hfree : Collisionless met) (hkeeps : ∀ c, met c → Keeps σ c) (ops : List StoreOp)
    (hmet : ∀ op ∈ ops, ∀ c ∈ op.content?, met c)
    (hroom : FactStore.size (w.run ops).store < 2 ^ 64 - 1024) :
    ∃ more, Good met (w.run ops) (log ++ more) := by
  induction ops generalizing w log with
  | nil => exact ⟨[], by simpa [run] using h⟩
  | cons op ops ih =>
      have hsize := size_le_run w (op :: ops)
      obtain ⟨more, hstep⟩ :=
        good_step h hfree hkeeps op (hmet op (List.mem_cons_self ..)) (by omega)
      obtain ⟨more', hrun⟩ := ih hstep (fun op' hop' => hmet op' (List.mem_cons_of_mem _ hop')) hroom
      exact ⟨more ++ more', by simpa [run] using hrun⟩

/-- What a commit of the batch `b` does to the store `s`. -/
structure CommitSpec (s : σ) (b : FactBatch) : Prop where
  ok_iff : (∃ s', FactStore.commit s b = .ok s') ↔
    FactStore.state s = .building ∧ b.base = FactStore.nextId s
  sealed : FactStore.state s ≠ .building → FactStore.commit s b = .error .storeSealed
  stale : FactStore.state s = .building → b.base ≠ FactStore.nextId s →
    FactStore.commit s b = .error (.storage (.staleBatch b.base (FactStore.nextId s)))
  /-- The facts of the batch are added under their ids, all of them and no others. -/
  committed : ∀ s', FactStore.commit s b = .ok s' → FactStore.size s' < 2 ^ 64 - 1024 →
    FactStore.committed s' = FactStore.committed s ++ b.facts

theorem commitSpec {s : σ} {log : List Fact} (hholds : Holds s log)
    (hkeeps : ∀ c, met c → Keeps σ c) (hroom : log.length < 2 ^ 64 - 1024) {b : FactBatch}
    (hfits : b.Fits met log) : CommitSpec s b := by
  have hcheck : b.checkCommit (FactStore.nextId s) (FactStore.state s) = .ok () ↔
      FactStore.state s = .building ∧ b.base = FactStore.nextId s := b.checkCommit_ok_iff
  refine ⟨⟨?_, ?_⟩, fun hstate => ?_, fun hstate hbase => ?_, fun s' hcommit hroom' => ?_⟩
  · rintro ⟨s', hcommit⟩
    refine hcheck.mp ?_
    cases h : b.checkCommit (FactStore.nextId s) (FactStore.state s) with
    | ok u => rfl
    | error e =>
        rw [commit_error h] at hcommit
        cases hcommit
  · intro h
    have hb := hfits.continues (h.2.trans (nextId_eq hholds)) hroom
    obtain ⟨s', hcommit, -⟩ := commit_continues hholds hkeeps hb h.1
    exact ⟨s', hcommit⟩
  · exact commit_error (by simp [FactBatch.checkCommit, hstate])
  · exact commit_error (by simp [FactBatch.checkCommit, hstate, hbase])
  · obtain ⟨hholds', -⟩ := commit_sound hholds hkeeps hroom hfits hcommit
    have hlen := size_eq hholds'
    rw [committed_eq hholds hroom, committed_eq hholds' (by omega)]

/-- After any operations in any order the answers of the store are consistent; every fact
that was committed along the way is still there, unchanged; and each open batch can be
committed where it began, in the building state, and nowhere else. -/
theorem run_consistent (met : Content → Prop) (hfree : Collisionless met)
    (hkeeps : ∀ c, met c → Keeps σ c) (ops : List StoreOp)
    (hmet : ∀ op ∈ ops, ∀ c ∈ op.content?, met c)
    (hroom : FactStore.size ((new : StoreSession σ).run ops).store < 2 ^ 64 - 1024) :
    Consistent met ((new : StoreSession σ).run ops).store ∧
    (∀ earlier, earlier <+: ops → ∀ id f,
      FactStore.lookup ((new : StoreSession σ).run earlier).store id = some f →
      FactStore.lookup ((new : StoreSession σ).run ops).store id = some f) ∧
    (∀ i b, ((new : StoreSession σ).run ops).batches i = some b →
      CommitSpec ((new : StoreSession σ).run ops).store b) := by
  obtain ⟨log, hgood⟩ := good_run Good.new hfree hkeeps ops hmet hroom
  rw [List.nil_append] at hgood
  have hlen : log.length < 2 ^ 64 - 1024 := by
    have := size_eq hgood.holds
    omega
  refine ⟨consistent_of_sound hgood.holds hgood.sound hfree hlen, ?_, fun i b hb =>
    commitSpec hgood.holds hkeeps hlen (hgood.fits i b hb)⟩
  rintro earlier ⟨rest, rfl⟩ id f hf
  have happ : (new : StoreSession σ).run (earlier ++ rest) = (new.run earlier).run rest :=
    List.foldl_append ..
  rw [happ] at hroom ⊢
  have hroom' := Nat.lt_of_le_of_lt (size_le_run (new.run earlier) rest) hroom
  obtain ⟨log₁, hgood₁⟩ := good_run Good.new hfree hkeeps earlier
    (fun op hop => hmet op (List.mem_append_left _ hop)) hroom'
  rw [List.nil_append] at hgood₁
  obtain ⟨more, hgood₂⟩ := good_run hgood₁ hfree hkeeps rest
    (fun op hop => hmet op (List.mem_append_right _ hop)) hroom
  have hlen₂ : (log₁ ++ more).length < 2 ^ 64 - 1024 := by
    have := size_eq hgood₂.holds
    omega
  have hlen₁ : log₁.length < 2 ^ 64 - 1024 := by
    rw [List.length_append] at hlen₂
    omega
  obtain ⟨hmem, hid⟩ := (lookup_eq_some_iff hgood₁.holds hlen₁).mp hf
  exact (lookup_eq_some_iff hgood₂.holds hlen₂).mpr ⟨List.mem_append_left _ hmem, hid⟩

/-- Two batches filled side by side, of which the second is stale when it is committed,
an insertion that refers to a fact of the first, and a store that is sealed. -/
def twoBatches : List StoreOp :=
  [.openBatch 0, .openBatch 1, .stage 0 ⟨"item", 1⟩ (.nat 1) .unit, .stage 1 ⟨"item", 1⟩ (.nat 2) .unit,
    .commit 0, .commit 1, .insert ⟨"tag", 1⟩ (.fact .first) .unit, .setState .complete]

/-- The contents that `twoBatches` brings. -/
def twoBatchesMet : List Content := twoBatches.filterMap StoreOp.content?

theorem run_consistent_twoBatches :
    let w : StoreSession MemoryStore := StoreSession.new.run twoBatches
    Consistent (· ∈ twoBatchesMet) w.store ∧
    (∀ earlier, earlier <+: twoBatches → ∀ id f,
      FactStore.lookup ((new : StoreSession MemoryStore).run earlier).store id = some f →
      FactStore.lookup w.store id = some f) ∧
    (∀ i b, w.batches i = some b → CommitSpec w.store b) := by
  have hcontent : CollisionFree (· ∈ twoBatchesMet) := by
    have hinj : ∀ a ∈ twoBatchesMet, ∀ b ∈ twoBatchesMet,
        Blake3.hash (encode a) = Blake3.hash (encode b) → encode a = encode b := by decide +kernel
    exact fun a b ha hb => hinj a ha b hb
  have hkey : CollisionFree fun k : Predicate × Value => ∃ v, (k.1, k.2, v) ∈ twoBatchesMet := by
    have hinj : ∀ a ∈ twoBatchesMet, ∀ b ∈ twoBatchesMet,
        Blake3.hash (encode (a.1, a.2.1)) = Blake3.hash (encode (b.1, b.2.1)) →
        encode (a.1, a.2.1) = encode (b.1, b.2.1) := by decide +kernel
    rintro ⟨p, k⟩ ⟨p', k'⟩ ⟨v, ha⟩ ⟨v', hb⟩
    exact hinj (p, k, v) ha (p', k', v') hb
  refine run_consistent (· ∈ twoBatchesMet) ⟨hcontent, hkey⟩ (fun _ _ => trivial) twoBatches
    (fun op hop c hc => ?_) (by decide +kernel)
  exact List.mem_filterMap.mpr ⟨op, hop, hc⟩

end StoreSession

end Factbase
