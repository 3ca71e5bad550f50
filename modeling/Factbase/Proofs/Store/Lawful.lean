import Factbase.Proofs.Store.Log
import Factbase.Store.Memory

/-!
# Stores that follow their log

`LawfulFactStore` is the specification of a store: every answer is the one
that the log of committed facts determines, and a batch that begins where
the log ends is appended to it. A store in memory meets it.

A store may be unable to keep every content (`Keeps`): one that writes
facts as bytes cannot keep lists that are longer than a length can say.
-/

namespace Factbase

/-- A batch of facts with their digests, numbered from place `n` on. -/
structure FactBatch.From (b : FactBatch) (n : Nat) : Prop where
  digest : ∀ e ∈ b.staged, e.1 = e.2.digest
  id_eq : ∀ (i : Nat) (f : Fact), b.facts[i]? = some f → f.id = .nth (n + i)

/-- What a store promises. `Holds s log` says that the committed facts are those of
`log`. -/
class LawfulFactStore (σ : Type) [FactStore σ] where
  /-- The store without facts. -/
  empty : σ
  /-- The contents that the store is able to keep. -/
  Keeps : Content → Prop
  Holds : σ → List Fact → Prop
  holds_empty : Holds empty []
  numbered {s : σ} {log : List Fact} : Holds s log → Numbered log
  lookup_eq {s : σ} {log : List Fact} : Holds s log →
    ∀ id, FactStore.lookup s id = log.reverse.find? (·.id = id)
  find_eq {s : σ} {log : List Fact} : Holds s log →
    ∀ d, FactStore.find s d = (FactIndex.ofFacts log).content.get? d
  scan_eq {s : σ} {log : List Fact} : Holds s log →
    ∀ p, FactStore.scan s p = (FactIndex.ofFacts log).scan p
  seek_eq {s : σ} {log : List Fact} : Holds s log →
    ∀ p key, FactStore.seek s p key = (FactIndex.ofFacts log).seek p key
  predicates_eq {s : σ} {log : List Fact} : Holds s log →
    FactStore.predicates s = (FactIndex.ofFacts log).byPredicate.keys
  statistics_eq {s : σ} {log : List Fact} : Holds s log →
    FactStore.statistics s = (FactIndex.ofFacts log).stats
  nextId_eq {s : σ} {log : List Fact} : Holds s log → FactStore.nextId s = .nth log.length
  size_eq {s : σ} {log : List Fact} : Holds s log →
    FactStore.size s = min log.length (2 ^ 64 - 1024)
  /-- A batch that continues the log is appended to it, and nothing else changes. -/
  commit_ok {s : σ} {log : List Fact} {b : FactBatch} : Holds s log → b.From log.length →
    (∀ f ∈ b.facts, Keeps f.content) →
    b.checkCommit (FactStore.nextId s) (FactStore.state s) = .ok () →
    ∃ s', FactStore.commit s b = .ok s' ∧ Holds s' (log ++ b.facts) ∧
      FactStore.state s' = FactStore.state s ∧ FactStore.loadSchema s' = FactStore.loadSchema s
  commit_error {s : σ} {b : FactBatch} {e : Error} :
    b.checkCommit (FactStore.nextId s) (FactStore.state s) = .error e →
    FactStore.commit s b = .error e
  size_le_commit {s s' : σ} {b : FactBatch} : FactStore.commit s b = .ok s' →
    FactStore.size s ≤ FactStore.size s'
  holds_setState {s : σ} {log : List Fact} (state : StoreState) : Holds s log →
    Holds (FactStore.setState s state) log
  state_setState (s : σ) (state : StoreState) :
    FactStore.state (FactStore.setState s state) = state
  loadSchema_setState (s : σ) (state : StoreState) :
    FactStore.loadSchema (FactStore.setState s state) = FactStore.loadSchema s
  size_setState (s : σ) (state : StoreState) :
    FactStore.size (FactStore.setState s state) = FactStore.size s
  holds_saveSchema {s : σ} {log : List Fact} (bytes : Bytes) : Holds s log →
    Holds (FactStore.saveSchema s bytes) log
  state_saveSchema (s : σ) (bytes : Bytes) :
    FactStore.state (FactStore.saveSchema s bytes) = FactStore.state s
  loadSchema_saveSchema (s : σ) (bytes : Bytes) :
    FactStore.loadSchema (FactStore.saveSchema s bytes) = some bytes
  size_saveSchema (s : σ) (bytes : Bytes) :
    FactStore.size (FactStore.saveSchema s bytes) = FactStore.size s

export LawfulFactStore (Keeps Holds)

/-! ## Commits -/

namespace FactBatch

theorem checkCommit_ok_iff {b : FactBatch} {next : FactId} {state : StoreState} :
    b.checkCommit next state = .ok () ↔ state = .building ∧ b.base = next := by
  unfold checkCommit
  by_cases hstate : state = .building
  · by_cases hbase : b.base = next
    · simp [hstate, hbase]
    · simp [hstate, hbase]
  · simp [hstate]

theorem length_facts (b : FactBatch) : b.facts.length = b.size := List.length_map ..

/-- The id that a store stands at after a batch was committed to it. -/
theorem foldl_next {b : FactBatch} {n : Nat} (h : b.From n) :
    b.facts.foldl (fun _ f => f.id.next) (.nth n) = .nth (n + b.facts.length) := by
  obtain ⟨-, hid⟩ := h
  generalize b.facts = facts at hid
  induction facts generalizing n with
  | nil => rfl
  | cons f facts ih =>
      have hf : f.id = .nth n := hid 0 f rfl
      rw [List.foldl_cons, hf, FactId.next_nth, ih fun i g hg => ?_]
      · rw [List.length_cons]
        congr 1
        omega
      · rw [hid (i + 1) g hg]
        congr 1
        omega

end FactBatch

/-! ## Stores in memory -/

/-- The facts of a log by their ids. -/
def factsById (log : List Fact) : SortedMap FactId Fact :=
  (∅ : SortedMap FactId Fact).insertMany (log.map fun f => (f.id, f))

theorem get?_factsById (log : List Fact) (id : FactId) :
    (factsById log).get? id = log.reverse.find? (·.id = id) := by
  rw [factsById, SortedMap.get?_insertMany, SortedMap.get?_empty, Option.or_none,
    ← List.map_reverse, List.find?_map, Option.map_map]
  have hcomp : (fun e : FactId × Fact => decide (e.1 = id)) ∘ (fun f : Fact => (f.id, f)) =
      fun f => decide (f.id = id) := rfl
  rw [hcomp]
  exact Option.map_id'

/-- Facts numbered by their place fill a map up to the last id there is. -/
theorem size_factsById {log : List Fact} (h : Numbered log) :
    (factsById log).size = min log.length (2 ^ 64 - 1024) := by
  induction log using List.reverseRecOn with
  | nil => rfl
  | append_singleton log f ih =>
      have hlog : Numbered log := h.of_append
      have hid : f.id = .nth log.length := h log.length f (by simp)
      have hstep : factsById (log ++ [f]) = (factsById log).insert f.id f := by
        rw [factsById, List.map_append, SortedMap.insertMany_append]
        rfl
      rw [hstep, List.length_append, List.length_singleton]
      by_cases hroom : log.length < 2 ^ 64 - 1024
      · -- the id is a new one
        have hfresh : (factsById log).get? f.id = none := by
          rw [get?_factsById, List.find?_eq_none]
          intro g hg he
          obtain ⟨n, hn, -, hgid⟩ := hlog.mem_id (List.mem_reverse.mp hg)
          have := FactId.nth_inj (by omega) hroom
            (hgid.symm.trans ((of_decide_eq_true he).trans hid))
          omega
        rw [SortedMap.size_insert_of_get?_none hfresh, ih hlog]
        omega
      · -- the id is the last one, which the fact at that place has already
        obtain ⟨g, hg⟩ : ∃ g, log[2 ^ 64 - 1025]? = some g :=
          ⟨_, List.getElem?_eq_getElem (by omega)⟩
        have hlast : g.id = f.id := by
          rw [hlog _ g hg, hid]
          refine FactId.ext_toNat ?_
          rw [FactId.toNat_nth, FactId.toNat_nth]
          omega
        obtain ⟨w, hw⟩ : ∃ w, (factsById log).get? f.id = some w := by
          rw [get?_factsById, ← Option.isSome_iff_exists, List.find?_isSome]
          exact ⟨g, List.mem_reverse.mpr (List.mem_of_getElem? hg), by simp [hlast]⟩
        rw [SortedMap.size_insert_of_get?_some hw, ih hlog]
        omega

namespace MemoryStore

theorem commit_eq {s : MemoryStore} {b : FactBatch} (h : b.checkCommit s.next s.state = .ok ()) :
    s.commit b = .ok { s with
      facts := s.facts.insertMany (b.facts.map fun f => (f.id, f))
      index := s.index.addAll b.staged
      next := b.facts.foldl (fun _ f => f.id.next) s.next } := by
  rw [commit, h]
  rfl

theorem commit_refused {s : MemoryStore} {b : FactBatch} {e : Error}
    (h : b.checkCommit s.next s.state = .error e) : s.commit b = .error e := by
  rw [commit, h]
  rfl

instance : LawfulFactStore MemoryStore where
  empty := empty
  Keeps _ := True
  Holds s log :=
    Numbered log ∧ s.facts = factsById log ∧ s.index = .ofFacts log ∧ s.next = .nth log.length
  holds_empty := ⟨.nil, rfl, rfl, FactId.first_eq_nth⟩
  numbered h := h.1
  lookup_eq {s log} h id := by
    rw [← get?_factsById, ← h.2.1]
    rfl
  find_eq h d := congrArg (·.content.get? d) h.2.2.1
  scan_eq h p := congrArg (·.scan p) h.2.2.1
  seek_eq h p key := congrArg (·.seek p key) h.2.2.1
  predicates_eq h := congrArg (·.byPredicate.keys) h.2.2.1
  statistics_eq h := congrArg (·.stats) h.2.2.1
  nextId_eq h := h.2.2.2
  size_eq {s log} h := by
    rw [← size_factsById h.1, ← h.2.1]
    rfl
  commit_ok {s log b} h hb _ hcheck := by
    obtain ⟨hnum, hfacts, hindex, hnext⟩ := h
    refine ⟨_, commit_eq hcheck, ⟨hnum.append hb.id_eq, ?_, ?_, ?_⟩, rfl, rfl⟩
    · rw [hfacts, factsById, factsById, List.map_append, SortedMap.insertMany_append]
    · rw [hindex, FactIndex.ofFacts_append log b.staged hb.digest]
      rfl
    · rw [hnext, FactBatch.foldl_next hb, List.length_append]
  commit_error hcheck := commit_refused hcheck
  size_le_commit {s s' b} hcommit := by
    cases hcheck : b.checkCommit s.next s.state with
    | error e =>
        have hrefused : s.commit b = .ok s' := hcommit
        rw [commit_refused hcheck] at hrefused
        cases hrefused
    | ok u =>
        have hdone : s.commit b = .ok s' := hcommit
        rw [commit_eq hcheck] at hdone
        cases hdone
        exact SortedMap.size_le_insertMany s.facts _
  holds_setState _ h := h
  state_setState _ _ := rfl
  loadSchema_setState _ _ := rfl
  size_setState _ _ := rfl
  holds_saveSchema _ h := h
  state_saveSchema _ _ := rfl
  loadSchema_saveSchema _ _ := rfl
  size_saveSchema _ _ := rfl

end MemoryStore

end Factbase
