import Factbase.Proofs.Store.Lawful
import Mathlib.Data.List.Nodup

/-!
# Batches and commits

Any number of batches can be open on one store, and a fact that is staged
in one of them is compared with what is committed at that moment. By the
time the batch is committed the store may have moved on. This module shows
that the one test at the commit is enough: a batch is accepted only where
it began, and there everything that was checked when its facts were staged
still holds.

The invariant of a batch (`FactBatch.Fits`) is about the place where it
began: the log up to that place, followed by the batch, is a log that a
store may have. Commits of other batches only make the log longer, so they
keep it; and at the place where the log ends it is what a commit needs.
-/

namespace Factbase

/-! ## Logs without repetition -/

/-- The contents that something holds of, and the keys in them, have digests of
their own. -/
structure Collisionless (met : Content → Prop) : Prop where
  content : CollisionFree met
  key : CollisionFree fun k : Predicate × Value => ∃ v, met (k.1, k.2, v)

/-- Contents are compared one by one. -/
theorem Collisionless.of_list {l : List Content}
    (hcontent : ∀ a ∈ l, ∀ b ∈ l, Blake3.hash (encode a) = Blake3.hash (encode b) → encode a = encode b)
    (hkey : ∀ a ∈ l, ∀ b ∈ l,
      Blake3.hash (encode (a.1, a.2.1)) = Blake3.hash (encode (b.1, b.2.1)) →
      encode (a.1, a.2.1) = encode (b.1, b.2.1)) : Collisionless (· ∈ l) where
  content a b ha hb := hcontent a ha b hb
  key := by
    rintro ⟨p, k⟩ ⟨p', k'⟩ ⟨v, ha⟩ ⟨v', hb⟩
    exact hkey (p, k, v) ha (p', k', v') hb

/-- A log that a store may have: every fact is there once. -/
structure Sound (met : Content → Prop) (log : List Fact) : Prop where
  ordered : Ordered log
  distinct : (log.map Fact.content).Nodup
  met : ∀ f ∈ log, met f.content

namespace Sound

variable {met : Content → Prop} {log : List Fact}

theorem nil : Sound met [] := ⟨.nil, List.nodup_nil, fun _ h => by cases h⟩

theorem of_append {more : List Fact} (h : Sound met (log ++ more)) : Sound met log where
  ordered :=
    ⟨h.ordered.numbered.of_append, fun f hf => h.ordered.references f (List.mem_append_left _ hf)⟩
  distinct := by
    have := h.distinct
    rw [List.map_append] at this
    exact (List.nodup_append.mp this).1
  met f hf := h.met f (List.mem_append_left _ hf)

theorem content_inj (h : Sound met log) {f g : Fact} (hf : f ∈ log) (hg : g ∈ log)
    (heq : f.content = g.content) : f = g :=
  List.inj_on_of_nodup_map h.distinct hf hg heq

/-- One more fact, with a new content and references to what is there. -/
theorem snoc (h : Sound met log) {f : Fact} (hid : f.id = .nth log.length)
    (href : ∀ r ∈ f.references, f.id.RefersTo r) (hnew : ∀ g ∈ log, g.content ≠ f.content)
    (hmet : met f.content) : Sound met (log ++ [f]) where
  ordered := by
    refine h.ordered.append (fun n g hg => ?_) fun g hg => ?_
    · obtain ⟨rfl, rfl⟩ := by simpa [List.getElem?_singleton] using hg
      exact hid
    · obtain rfl := List.mem_singleton.mp hg
      exact href
  distinct := by
    rw [List.map_append, List.map_singleton]
    refine List.nodup_append.mpr ⟨h.distinct, List.nodup_singleton _, ?_⟩
    intro c hc d hd
    obtain ⟨g, hg, rfl⟩ := List.mem_map.mp hc
    obtain rfl := List.mem_singleton.mp hd
    exact hnew g hg
  met g hg := by
    rcases List.mem_append.mp hg with hg | hg
    · exact h.met g hg
    · obtain rfl := List.mem_singleton.mp hg
      exact hmet

/-- A content digest that something met has is found at the fact that has it. -/
theorem find_iff (h : Sound met log) (hfree : CollisionFree met) {p : Predicate} {k v : Value}
    (hmet : met (p, k, v)) {id : FactId} :
    (FactIndex.ofFacts log).content.get? (contentDigest p k v) = some id ↔
      ∃ f ∈ log, f.content = (p, k, v) ∧ f.id = id := by
  have hcontent : ∀ f ∈ log, f.digest = contentDigest p k v → f.content = (p, k, v) :=
    fun f hf hd => hfree.eq_of_hash unambiguous_content (h.met f hf) hmet hd
  rw [FactIndex.content_ofFacts, Option.map_eq_some_iff]
  constructor
  · rintro ⟨f, hfind, hid⟩
    have hf : f ∈ log := List.mem_reverse.mp (List.mem_of_find?_eq_some hfind)
    exact ⟨f, hf, hcontent f hf (by simpa using List.find?_some hfind), hid⟩
  · rintro ⟨f, hf, heq, hid⟩
    have hd : f.digest = contentDigest p k v := Fact.digest_of_content heq
    obtain ⟨g, hfind⟩ : ∃ g, log.reverse.find? (·.digest = contentDigest p k v) = some g := by
      rw [← Option.isSome_iff_exists, List.find?_isSome]
      exact ⟨f, List.mem_reverse.mpr hf, by simpa using hd⟩
    have hg : g ∈ log := List.mem_reverse.mp (List.mem_of_find?_eq_some hfind)
    have hgf : g = f := h.content_inj hg hf <|
      (hcontent g hg (by simpa using List.find?_some hfind)).trans heq.symm
    exact ⟨g, hfind, hgf ▸ hid⟩

/-- A key digest that something met has is found at the facts with that key. -/
theorem mem_seek_iff (h : Sound met log) (hfree : Collisionless met) {p : Predicate} {k v : Value}
    (hmet : met (p, k, v)) {id : FactId} :
    id ∈ (FactIndex.ofFacts log).seek p k ↔
      ∃ f ∈ log, f.predicate = p ∧ f.key = k ∧ f.id = id := by
  simp only [FactIndex.seek_ofFacts, List.mem_map, List.mem_filter, decide_eq_true_eq]
  constructor
  · rintro ⟨f, ⟨hf, hd⟩, hid⟩
    have heq : (f.predicate, f.key) = (p, k) :=
      hfree.key.eq_of_hash unambiguous_keyContent ⟨f.value, h.met f hf⟩ ⟨v, hmet⟩ hd
    exact ⟨f, hf, congrArg Prod.fst heq, congrArg Prod.snd heq, hid⟩
  · rintro ⟨f, hf, rfl, rfl, hid⟩
    exact ⟨f, ⟨hf, rfl⟩, hid⟩

end Sound

/-! ## Open batches -/

/-- A batch goes on where a log ends. -/
structure FactBatch.Continues (met : Content → Prop) (b : FactBatch) (log : List Fact) : Prop where
  base : b.base = .nth log.length
  next : b.next = .nth (log.length + b.size)
  digest : ∀ e ∈ b.staged, e.1 = e.2.digest
  sound : Sound met (log ++ b.facts)

/-- A batch that began at some place of the log, and would be sound there. -/
def FactBatch.Fits (met : Content → Prop) (b : FactBatch) (log : List Fact) : Prop :=
  ∃ n, n ≤ log.length ∧ b.Continues met (log.take n)

theorem FactBatch.facts_push (b : FactBatch) (d : Digest) (p : Predicate) (k v : Value) :
    (b.push d p k v).facts = b.facts ++ [⟨b.next, p, k, v⟩] := by
  simp [push, facts]

namespace FactBatch.Continues

variable {met : Content → Prop} {b : FactBatch} {log : List Fact}

theorem startingAt (h : Sound met log) :
    (FactBatch.startingAt (.nth log.length)).Continues met log where
  base := rfl
  next := rfl
  digest e he := by cases he
  sound := by simpa [FactBatch.startingAt, FactBatch.facts] using h

/-- A fact can be pushed that is new and refers to what is there. -/
theorem push (h : b.Continues met log) {p : Predicate} {k v : Value} (hmet : met (p, k, v))
    (hlog : ∀ f ∈ log, f.content ≠ (p, k, v)) (hbatch : b.find? (contentDigest p k v) = none)
    (href : b.dangling? (k.references ++ v.references) = none) :
    (b.push (contentDigest p k v) p k v).Continues met log where
  base := h.base
  next := by
    rw [FactBatch.push, h.next, FactId.next_nth]
    simp [FactBatch.size, Nat.add_assoc]
  digest e he := by
    rcases List.mem_append.mp he with he | he
    · exact h.digest e he
    · obtain rfl := List.mem_singleton.mp he
      rfl
  sound := by
    rw [facts_push, ← List.append_assoc]
    refine h.sound.snoc ?_ (fun r hr => ?_) (fun g hg heq => ?_) hmet
    · rw [List.length_append, FactBatch.length_facts, h.next]
    · have hr := List.find?_eq_none.mp href r hr
      simp only [Bool.or_eq_true, decide_eq_true_eq, not_or, UInt64.not_lt, UInt64.not_le] at hr
      exact hr
    · rcases List.mem_append.mp hg with hg | hg
      · exact hlog g hg heq
      · obtain ⟨e, he, rfl⟩ := List.mem_map.mp hg
        refine List.find?_eq_none.mp (Option.map_eq_none_iff.mp hbatch) e he ?_
        rw [h.digest e he, Fact.digest_of_content heq]
        exact beq_self_eq_true _

/-- A batch that goes on where the log ends can be appended. -/
theorem from_length (h : b.Continues met log) : b.From log.length := by
  refine ⟨h.digest, fun i f hf => h.sound.ordered.numbered (log.length + i) f ?_⟩
  rw [List.getElem?_append_right (by omega)]
  simpa using hf

end FactBatch.Continues

namespace FactBatch.Fits

variable {met : Content → Prop} {b : FactBatch} {log : List Fact}

theorem of_continues (h : b.Continues met log) : b.Fits met log :=
  ⟨log.length, Nat.le_refl _, by rwa [List.take_length]⟩

/-- Commits of other batches do not matter to a batch. -/
theorem append (h : b.Fits met log) (more : List Fact) : b.Fits met (log ++ more) := by
  obtain ⟨n, hn, hb⟩ := h
  refine ⟨n, ?_, ?_⟩
  · rw [List.length_append]
    omega
  · rwa [List.take_append_of_le_length hn]

/-- A batch that began where the log ends goes on there. -/
theorem continues (h : b.Fits met log) (hbase : b.base = .nth log.length)
    (hroom : log.length < 2 ^ 64 - 1024) : b.Continues met log := by
  obtain ⟨n, hn, hb⟩ := h
  have hlen : (log.take n).length = n := List.length_take_of_le hn
  have hbase' := hb.base
  rw [hlen] at hbase'
  obtain rfl : n = log.length := FactId.nth_inj (by omega) hroom (hbase'.symm.trans hbase)
  rwa [List.take_length] at hb

end FactBatch.Fits

section Stores

variable {σ : Type} [FactStore σ]

/-- Staging finds the fact in the store or in the batch, or else pushes it. -/
theorem stage_cases {s : σ} {b b' : FactBatch} {p : Predicate} {k v : Value} {id : FactId}
    (h : FactStore.stage s b p k v = .ok (b', id)) :
    (b' = b ∧ FactStore.find s (contentDigest p k v) = some id) ∨
    (b' = b ∧ b.find? (contentDigest p k v) = some id) ∨
    (b' = b.push (contentDigest p k v) p k v ∧ id = b.next ∧
      FactStore.find s (contentDigest p k v) = none ∧ b.find? (contentDigest p k v) = none ∧
      b.dangling? (k.references ++ v.references) = none) := by
  unfold FactStore.stage at h
  split at h
  · cases h
  · dsimp only at h
    split at h
    · rename_i id' hfound
      cases h
      cases hstore : FactStore.find s (contentDigest p k v) with
      | none =>
          rw [hstore] at hfound
          exact .inr (.inl ⟨rfl, by simpa using hfound⟩)
      | some id'' =>
          rw [hstore] at hfound
          exact .inl ⟨rfl, by simpa using hfound⟩
    · rename_i hnone
      obtain ⟨hstore, hbatch⟩ : FactStore.find s (contentDigest p k v) = none ∧
          b.find? (contentDigest p k v) = none := by simpa using hnone
      split at h
      · cases h
      · rename_i hdangling
        cases h
        exact .inr (.inr ⟨rfl, rfl, hstore, hbatch, hdangling⟩)

variable [LawfulFactStore σ] {met : Content → Prop} {s : σ} {log : List Fact}

open LawfulFactStore

/-- What a store does not find by its content is not in its log. -/
theorem content_ne_of_find_none (hholds : Holds s log) (hsound : Sound met log)
    (hfree : CollisionFree met) {p : Predicate} {k v : Value} (hmet : met (p, k, v))
    (hfind : FactStore.find s (contentDigest p k v) = none) :
    ∀ f ∈ log, f.content ≠ (p, k, v) := by
  intro f hf heq
  have hfound := (hsound.find_iff hfree hmet).mpr ⟨f, hf, heq, rfl⟩
  rw [← find_eq hholds, hfind] at hfound
  cases hfound

/-- Staging keeps a batch sound. The fact is new to the whole log and so to the part
of it that the batch builds on. -/
theorem fits_stage (hholds : Holds s log) (hsound : Sound met log) (hfree : CollisionFree met)
    {b b' : FactBatch} (hfits : b.Fits met log) {p : Predicate} {k v : Value}
    (hmet : met (p, k, v)) {id : FactId} (hstage : FactStore.stage s b p k v = .ok (b', id)) :
    b'.Fits met log := by
  rcases stage_cases hstage with ⟨rfl, -⟩ | ⟨rfl, -⟩ | ⟨rfl, -, hstore, hbatch, hdangling⟩
  · exact hfits
  · exact hfits
  · obtain ⟨n, hn, hb⟩ := hfits
    have hnew := content_ne_of_find_none hholds hsound hfree hmet hstore
    exact ⟨n, hn, hb.push hmet (fun f hf => hnew f (List.mem_of_mem_take hf)) hbatch hdangling⟩

/-- A batch that goes on where the log ends is appended by a commit. -/
theorem commit_continues (hholds : Holds s log) (hkeeps : ∀ c, met c → Keeps σ c) {b : FactBatch}
    (hb : b.Continues met log) (hstate : FactStore.state s = .building) :
    ∃ s', FactStore.commit s b = .ok s' ∧ Holds s' (log ++ b.facts) ∧
      FactStore.state s' = FactStore.state s ∧
      FactStore.loadSchema s' = FactStore.loadSchema s := by
  refine commit_ok hholds hb.from_length (fun f hf => ?_) ?_
  · exact hkeeps _ (hb.sound.met f (List.mem_append_right _ hf))
  · exact FactBatch.checkCommit_ok_iff.mpr ⟨hstate, by rw [nextId_eq hholds, hb.base]⟩

/-- A commit that goes through appends the batch. -/
theorem commit_sound (hholds : Holds s log) (hkeeps : ∀ c, met c → Keeps σ c)
    (hroom : log.length < 2 ^ 64 - 1024) {b : FactBatch} (hfits : b.Fits met log) {s' : σ}
    (hcommit : FactStore.commit s b = .ok s') :
    Holds s' (log ++ b.facts) ∧ Sound met (log ++ b.facts) := by
  cases hcheck : b.checkCommit (FactStore.nextId s) (FactStore.state s) with
  | error e =>
      rw [commit_error hcheck] at hcommit
      cases hcommit
  | ok u =>
      obtain ⟨hstate, hbase⟩ := FactBatch.checkCommit_ok_iff.mp hcheck
      have hb := hfits.continues (hbase.trans (nextId_eq hholds)) hroom
      obtain ⟨t, ht, hholds', -, -⟩ := commit_continues hholds hkeeps hb hstate
      rw [ht] at hcommit
      cases hcommit
      exact ⟨hholds', hb.sound⟩

end Stores

end Factbase
