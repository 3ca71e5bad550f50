import Factbase.Proofs.Store.Sessions

/-!
# Digests in a store

A fact is staged only if its digest is found neither in the store nor in
the batch, and a batch is committed only where it began. So the digests of
the committed facts differ, whether or not the hash collides: of contents
with the same digest the store has the first one only.

`kept` are the contents that the store is able to keep.
-/

namespace Factbase

/-- A log whose facts have digests of their own and refer to earlier facts only. -/
structure Distinguished (kept : Content → Prop) (log : List Fact) : Prop where
  ordered : Ordered log
  digests : (log.map Fact.digest).Nodup
  kept : ∀ f ∈ log, kept f.content

namespace Distinguished

variable {kept : Content → Prop} {log : List Fact}

theorem nil : Distinguished kept [] := ⟨.nil, List.nodup_nil, fun _ h => by cases h⟩

theorem of_append {more : List Fact} (h : Distinguished kept (log ++ more)) :
    Distinguished kept log where
  ordered :=
    ⟨h.ordered.numbered.of_append, fun f hf => h.ordered.references f (List.mem_append_left _ hf)⟩
  digests := by
    have hnodup := h.digests
    rw [List.map_append] at hnodup
    exact (List.nodup_append.mp hnodup).1
  kept f hf := h.kept f (List.mem_append_left _ hf)

/-- One more fact, with a new digest and references to what is there. -/
theorem snoc (h : Distinguished kept log) {f : Fact} (hid : f.id = .nth log.length)
    (href : ∀ r ∈ f.references, f.id.RefersTo r) (hnew : f.digest ∉ log.map Fact.digest)
    (hkept : kept f.content) : Distinguished kept (log ++ [f]) where
  ordered := by
    refine h.ordered.append (fun n g hg => ?_) fun g hg => ?_
    · obtain ⟨rfl, rfl⟩ := by simpa [List.getElem?_singleton] using hg
      exact hid
    · obtain rfl := List.mem_singleton.mp hg
      exact href
  digests := by
    rw [List.map_append, List.map_singleton]
    exact List.nodup_append.mpr ⟨h.digests, List.nodup_singleton _, fun d hd e he heq => by
      obtain rfl := List.mem_singleton.mp he
      exact hnew (heq ▸ hd)⟩
  kept g hg := by
    rcases List.mem_append.mp hg with hg | hg
    · exact h.kept g hg
    · obtain rfl := List.mem_singleton.mp hg
      exact hkept

end Distinguished

/-! ## Open batches -/

/-- A batch whose facts go on where a log ends, with digests of their own. -/
structure FactBatch.Prolongs (kept : Content → Prop) (b : FactBatch) (log : List Fact) : Prop where
  base : b.base = .nth log.length
  next : b.next = .nth (log.length + b.size)
  digest : ∀ e ∈ b.staged, e.1 = e.2.digest
  distinguished : Distinguished kept (log ++ b.facts)

namespace FactBatch.Prolongs

variable {kept : Content → Prop} {b : FactBatch} {log : List Fact}

theorem startingAt (h : Distinguished kept log) :
    (FactBatch.startingAt (.nth log.length)).Prolongs kept log where
  base := rfl
  next := rfl
  digest e he := by cases he
  distinguished := by simpa [FactBatch.startingAt, FactBatch.facts] using h

/-- The digest of a fact in a batch is found. -/
theorem digest_not_mem (h : b.Prolongs kept log) {d : Digest} (hfind : b.find? d = none) :
    d ∉ b.facts.map Fact.digest := by
  intro hd
  obtain ⟨f, hf, rfl⟩ := List.mem_map.mp hd
  obtain ⟨e, he, rfl⟩ := List.mem_map.mp hf
  refine List.find?_eq_none.mp (Option.map_eq_none_iff.mp hfind) e he ?_
  rw [h.digest e he]
  exact beq_self_eq_true _

theorem push (h : b.Prolongs kept log) {p : Predicate} {k v : Value} (hkept : kept (p, k, v))
    (hlog : contentDigest p k v ∉ log.map Fact.digest)
    (hbatch : b.find? (contentDigest p k v) = none)
    (href : b.dangling? (k.references ++ v.references) = none) :
    (b.push (contentDigest p k v) p k v).Prolongs kept log where
  base := h.base
  next := by
    rw [FactBatch.push, h.next, FactId.next_nth]
    simp [FactBatch.size, Nat.add_assoc]
  digest e he := by
    rcases List.mem_append.mp he with he | he
    · exact h.digest e he
    · obtain rfl := List.mem_singleton.mp he
      rfl
  distinguished := by
    rw [facts_push, ← List.append_assoc]
    refine h.distinguished.snoc ?_ (fun r hr => ?_) ?_ hkept
    · rw [List.length_append, FactBatch.length_facts, h.next]
    · have hr := List.find?_eq_none.mp href r hr
      simp only [Bool.or_eq_true, decide_eq_true_eq, not_or, UInt64.not_lt, UInt64.not_le] at hr
      exact hr
    · rw [List.map_append, List.mem_append]
      exact fun hin => hin.elim hlog (h.digest_not_mem hbatch)

theorem from_length (h : b.Prolongs kept log) : b.From log.length := by
  refine ⟨h.digest, fun i f hf => h.distinguished.ordered.numbered (log.length + i) f ?_⟩
  rw [List.getElem?_append_right (by omega)]
  simpa using hf

end FactBatch.Prolongs

/-! ## Sessions -/

section Sessions

variable {σ : Type} [FactStore σ] [LawfulFactStore σ] {log : List Fact} {s : σ}

open LawfulFactStore

/-- A digest that a store does not find is not in its log. -/
theorem digest_not_mem_of_find_none (hholds : Holds s log) {d : Digest}
    (hfind : FactStore.find s d = none) : d ∉ log.map Fact.digest := by
  intro hd
  obtain ⟨f, hf, rfl⟩ := List.mem_map.mp hd
  rw [find_eq hholds, FactIndex.content_ofFacts, Option.map_eq_none_iff] at hfind
  refine List.find?_eq_none.mp hfind f (List.mem_reverse.mpr hf) ?_
  exact decide_eq_true rfl

/-- A commit that goes through was for a batch that began where the log ends. -/
theorem commit_distinguished (hholds : Holds s log) (hroom : log.length < 2 ^ 64 - 1024)
    {b : FactBatch} {n : Nat} (hn : n ≤ log.length) (hb : b.Prolongs (Keeps σ) (log.take n))
    {s' : σ} (hcommit : FactStore.commit s b = .ok s') :
    Holds s' (log ++ b.facts) ∧ Distinguished (Keeps σ) (log ++ b.facts) ∧
      FactStore.state s' = FactStore.state s := by
  cases hcheck : b.checkCommit (FactStore.nextId s) (FactStore.state s) with
  | error e =>
      rw [commit_error hcheck] at hcommit
      cases hcommit
  | ok u =>
      obtain ⟨-, hbase⟩ := FactBatch.checkCommit_ok_iff.mp hcheck
      have hlen : (log.take n).length = n := List.length_take_of_le hn
      have hbase' := hb.base
      rw [hlen] at hbase'
      obtain rfl : n = log.length := FactId.nth_inj (by omega) hroom
        (hbase'.symm.trans (hbase.trans (nextId_eq hholds)))
      rw [List.take_length] at hb
      obtain ⟨t, ht, hholds', hsame, -⟩ := commit_ok hholds hb.from_length
        (fun f hf => hb.distinguished.kept f (List.mem_append_right _ hf)) hcheck
      rw [ht] at hcommit
      cases hcommit
      exact ⟨hholds', hb.distinguished, hsame⟩

namespace StoreSession

/-- The store of a session holds a log of distinguished facts, and so would it after a
commit of any open batch where the batch began. -/
structure Apart (w : StoreSession σ) (log : List Fact) : Prop where
  holds : Holds w.store log
  distinguished : Distinguished (Keeps σ) log
  batches : ∀ i b, w.batches i = some b →
    ∃ n, n ≤ log.length ∧ b.Prolongs (Keeps σ) (log.take n)

namespace Apart

variable {w : StoreSession σ}

theorem new : Apart (new : StoreSession σ) [] :=
  ⟨holds_empty, .nil, fun _ _ h => by cases h⟩

theorem hold (h : Apart w log) (i : Nat) {b : Option FactBatch}
    (hb : ∀ b' ∈ b, ∃ n, n ≤ log.length ∧ b'.Prolongs (Keeps σ) (log.take n)) :
    Apart (w.hold i b) log where
  holds := h.holds
  distinguished := h.distinguished
  batches j b' hj := by
    unfold StoreSession.hold at hj
    dsimp only at hj
    split at hj
    · exact hb b' hj
    · exact h.batches j b' hj

/-- The store may hold a longer log; the batches stay. -/
theorem extend (h : Apart w log) {s : σ} {more : List Fact} (hholds : Holds s (log ++ more))
    (hlog : Distinguished (Keeps σ) (log ++ more)) : Apart { w with store := s } (log ++ more) where
  holds := hholds
  distinguished := hlog
  batches i b hb := by
    obtain ⟨n, hn, hbatch⟩ := h.batches i b hb
    refine ⟨n, by rw [List.length_append]; omega, ?_⟩
    rwa [List.take_append_of_le_length hn]

/-- A batch that is begun goes on where the log ends. -/
theorem newBatch (h : Apart w log) :
    (FactStore.newBatch w.store).Prolongs (Keeps σ) (log.take log.length) := by
  rw [FactStore.newBatch, nextId_eq h.holds, List.take_length]
  exact .startingAt h.distinguished

/-- Staging keeps the digests of a batch apart from those of the log it goes on from. -/
theorem stage (h : Apart w log) {b b' : FactBatch} {n : Nat}
    (hb : b.Prolongs (Keeps σ) (log.take n)) {p : Predicate} {k v : Value}
    (hkept : Keeps σ (p, k, v)) {id : FactId}
    (hstage : FactStore.stage w.store b p k v = .ok (b', id)) :
    b'.Prolongs (Keeps σ) (log.take n) := by
  rcases stage_cases hstage with ⟨rfl, -⟩ | ⟨rfl, -⟩ | ⟨rfl, -, hstore, hbatch, hdangling⟩
  · exact hb
  · exact hb
  · have hnew := digest_not_mem_of_find_none h.holds hstore
    exact hb.push hkept (fun hin => hnew (List.map_subset _ (List.take_subset n log) hin))
      hbatch hdangling

/-- One operation keeps the digests apart. -/
theorem step (h : Apart w log) (op : StoreOp) (hkept : ∀ c ∈ op.content?, Keeps σ c)
    (hroom : FactStore.size w.store < 2 ^ 64 - 1024) :
    ∃ more, Apart (w.step op) (log ++ more) := by
  have hlen : log.length < 2 ^ 64 - 1024 := by
    have := size_eq h.holds
    omega
  have hsame : Apart w (log ++ []) := by simpa using h
  have hnone : ∀ i, Apart (w.hold i none) log := fun i => h.hold i fun _ hb => by cases hb
  cases op with
  | openBatch i =>
      have hheld := h.hold i (b := some (FactStore.newBatch w.store)) fun b hb =>
        Option.some.inj hb ▸ ⟨log.length, Nat.le_refl _, h.newBatch⟩
      exact ⟨[], by simpa [StoreSession.step] using hheld⟩
  | copyBatch i j =>
      have hheld := h.hold j (b := w.batches i) fun b hb => h.batches i b hb
      exact ⟨[], by simpa [StoreSession.step] using hheld⟩
  | dropBatch i => exact ⟨[], by simpa [StoreSession.step] using hnone i⟩
  | stage i p k v =>
      unfold StoreSession.step
      dsimp only
      split
      · exact ⟨[], hsame⟩
      · rename_i b hb
        split
        · rename_i b' id hstage
          obtain ⟨n, hn, hbatch⟩ := h.batches i b hb
          have hheld := h.hold i (b := some b') fun b'' hb'' =>
            Option.some.inj hb'' ▸ ⟨n, hn, h.stage hbatch (hkept _ rfl) hstage⟩
          exact ⟨[], by simpa using hheld⟩
        · exact ⟨[], hsame⟩
  | commit i =>
      unfold StoreSession.step
      dsimp only
      split
      · exact ⟨[], hsame⟩
      · rename_i b hb
        split
        · rename_i s' hcommit
          obtain ⟨n, hn, hbatch⟩ := h.batches i b hb
          obtain ⟨hholds, hlog, -⟩ := commit_distinguished h.holds hlen hn hbatch hcommit
          exact ⟨b.facts, (hnone i).extend hholds hlog⟩
        · exact ⟨[], by simpa using hnone i⟩
  | insert p k v =>
      unfold StoreSession.step
      dsimp only
      split
      · rename_i s' id hinsert
        obtain ⟨b, hstage, hcommit⟩ := insert_ok hinsert
        have hbatch := h.stage h.newBatch (hkept _ rfl) hstage
        obtain ⟨hholds, hlog, -⟩ := commit_distinguished h.holds hlen (Nat.le_refl _) hbatch hcommit
        exact ⟨b.facts, h.extend hholds hlog⟩
      · exact ⟨[], hsame⟩
  | setState state =>
      refine ⟨[], h.extend ?_ ?_⟩
      · simpa using holds_setState state h.holds
      · simpa using h.distinguished
  | saveSchema bytes =>
      refine ⟨[], h.extend ?_ ?_⟩
      · simpa using holds_saveSchema bytes h.holds
      · simpa using h.distinguished

/-- No operation but one that sets the state changes it. -/
theorem state_step (h : Apart w log) (op : StoreOp) (hkept : ∀ c ∈ op.content?, Keeps σ c)
    (hroom : FactStore.size w.store < 2 ^ 64 - 1024) :
    FactStore.state (w.step op).store = FactStore.state w.store ∨
      ∃ state, op = .setState state ∧ FactStore.state (w.step op).store = state := by
  have hlen : log.length < 2 ^ 64 - 1024 := by
    have := size_eq h.holds
    omega
  cases op with
  | openBatch | copyBatch | dropBatch => exact .inl rfl
  | setState state => exact .inr ⟨state, rfl, state_setState w.store state⟩
  | saveSchema bytes => exact .inl (state_saveSchema w.store bytes)
  | stage i p k v =>
      left
      unfold StoreSession.step
      dsimp only
      split
      · rfl
      · split <;> rfl
  | commit i =>
      left
      unfold StoreSession.step
      dsimp only
      split
      · rfl
      · rename_i b hb
        split
        · rename_i s' hcommit
          obtain ⟨n, hn, hbatch⟩ := h.batches i b hb
          exact (commit_distinguished h.holds hlen hn hbatch hcommit).2.2
        · rfl
  | insert p k v =>
      left
      unfold StoreSession.step
      dsimp only
      split
      · rename_i s' id hinsert
        obtain ⟨b, hstage, hcommit⟩ := insert_ok hinsert
        have hbatch := h.stage h.newBatch (hkept _ rfl) hstage
        exact (commit_distinguished h.holds hlen (Nat.le_refl _) hbatch hcommit).2.2
      · rfl

/-- A run keeps the digests apart. -/
theorem run (h : Apart w log) (ops : List StoreOp)
    (hkept : ∀ op ∈ ops, ∀ c ∈ op.content?, Keeps σ c)
    (hroom : FactStore.size (w.run ops).store < 2 ^ 64 - 1024) :
    ∃ more, Apart (w.run ops) (log ++ more) := by
  induction ops generalizing w log with
  | nil => exact ⟨[], by simpa [StoreSession.run] using h⟩
  | cons op ops ih =>
      have hsize := size_le_run w (op :: ops)
      obtain ⟨more, hstep⟩ := h.step op (hkept op (List.mem_cons_self ..)) (by omega)
      obtain ⟨more', hrun⟩ := ih hstep (fun op' hop' => hkept op' (List.mem_cons_of_mem _ hop')) hroom
      exact ⟨more ++ more', by simpa [StoreSession.run] using hrun⟩

/-- A store that is being built still is, where no operation sets another state. -/
theorem building_run (h : Apart w log) (ops : List StoreOp)
    (hkept : ∀ op ∈ ops, ∀ c ∈ op.content?, Keeps σ c)
    (hroom : FactStore.size (w.run ops).store < 2 ^ 64 - 1024)
    (hbuilding : FactStore.state w.store = .building)
    (hopen : ∀ state, .setState state ∈ ops → state = .building) :
    FactStore.state (w.run ops).store = .building := by
  induction ops generalizing w log with
  | nil => exact hbuilding
  | cons op ops ih =>
      have hsize := size_le_run w (op :: ops)
      have hkept' := hkept op (List.mem_cons_self ..)
      obtain ⟨more, hstep⟩ := h.step op hkept' (by omega)
      refine ih hstep (fun op' hop' => hkept op' (List.mem_cons_of_mem _ hop')) hroom ?_
        fun state hstate => hopen state (List.mem_cons_of_mem _ hstate)
      rcases h.state_step op hkept' (by omega) with hsame | ⟨state, rfl, hset⟩
      · exact hsame.trans hbuilding
      · exact hset.trans (hopen state (List.mem_cons_self ..))

/-- A fact that the store holds is found by its digest. -/
theorem find (h : Apart w log) {f : Fact} (hf : f ∈ log) :
    FactStore.find w.store f.digest = some f.id := by
  rw [find_eq h.holds, FactIndex.content_ofFacts, Option.map_eq_some_iff]
  obtain ⟨g, hfind⟩ : ∃ g, log.reverse.find? (·.digest = f.digest) = some g := by
    rw [← Option.isSome_iff_exists, List.find?_isSome]
    exact ⟨f, List.mem_reverse.mpr hf, decide_eq_true rfl⟩
  have hg : g ∈ log := List.mem_reverse.mp (List.mem_of_find?_eq_some hfind)
  have hdigest : g.digest = f.digest := by simpa using List.find?_some hfind
  exact ⟨g, hfind, by rw [List.inj_on_of_nodup_map h.distinguished.digests hg hf hdigest]⟩

/-- What is found by a digest is a fact of the log. -/
theorem of_find (h : Apart w log) {digest : Digest} {id : FactId}
    (hfind : FactStore.find w.store digest = some id) : ∃ f ∈ log, f.digest = digest ∧ f.id = id := by
  rw [find_eq h.holds, FactIndex.content_ofFacts] at hfind
  obtain ⟨f, hfind, hid⟩ := Option.map_eq_some_iff.mp hfind
  exact ⟨f, List.mem_reverse.mp (List.mem_of_find?_eq_some hfind), by simpa using List.find?_some hfind, hid⟩

end Apart

/-- After any operations in any order the committed facts have digests of their own. No
assumption is made about the hash. -/
theorem run_apart (ops : List StoreOp) (hkept : ∀ op ∈ ops, ∀ c ∈ op.content?, Keeps σ c)
    (hroom : FactStore.size ((new : StoreSession σ).run ops).store < 2 ^ 64 - 1024) :
    Apart ((new : StoreSession σ).run ops) (FactStore.committed ((new : StoreSession σ).run ops).store) := by
  obtain ⟨log, h⟩ := Apart.new.run ops hkept hroom
  rw [List.nil_append] at h
  have hlen : log.length < 2 ^ 64 - 1024 := by
    have := size_eq h.holds
    omega
  rwa [committed_eq h.holds hlen]

end StoreSession

end Sessions

end Factbase
