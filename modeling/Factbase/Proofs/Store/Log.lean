import Factbase.Proofs.Encoding
import Factbase.Proofs.SortedMap
import Factbase.Store.Index
import Mathlib.Algebra.GroupWithZero.Nat
import Mathlib.Data.List.Induction

/-!
# The log of a store

What a store holds is determined by the list of its facts in the order
they were committed, its log. This module says what a log may look like
(`Ordered`) and what the indexes of a log answer (`FactIndex.ofFacts`).

Facts are numbered by their place in the log. The number stops at the
largest id there is, and nothing here assumes that a log is short: only
`Numbered.id_inj` needs the ids to be below that last one.
-/

namespace Factbase

/-! ## Ids by place -/

namespace FactId

/-- The id of the fact at place `n` of a log. -/
def nth (n : Nat) : FactId := ⟨UInt64.ofNat (min (1024 + n) (2 ^ 64 - 1))⟩

theorem toNat_nth (n : Nat) : (nth n).number.toNat = min (1024 + n) (2 ^ 64 - 1) := by
  have hlt : min (1024 + n) (2 ^ 64 - 1) < 2 ^ 64 := by omega
  simp only [nth, UInt64.toNat_ofNat']
  omega

theorem ext_toNat {a b : FactId} (h : a.number.toNat = b.number.toNat) : a = b := by
  cases a; cases b
  exact congrArg FactId.mk (UInt64.toNat_inj.mp h)

theorem first_eq_nth : first = nth 0 := ext_toNat (by rw [toNat_nth]; rfl)

theorem next_nth (n : Nat) : (nth n).next = nth (n + 1) := by
  refine ext_toNat ?_
  have hn := toNat_nth n
  have hmax : (UInt64.ofNat (2 ^ 64 - 1)).toNat = 2 ^ 64 - 1 := rfl
  rw [next]
  split
  · rename_i heq
    have hlast := congrArg UInt64.toNat heq
    rw [toNat_nth (n + 1)]
    omega
  · rename_i hne
    have hne' : (nth n).number.toNat ≠ 2 ^ 64 - 1 := fun he =>
      hne (UInt64.toNat_inj.mp (he.trans hmax.symm))
    have hadd : ((nth n).number + 1).toNat = (nth n).number.toNat + 1 := by
      rw [UInt64.toNat_add]
      simp only [UInt64.reduceToNat]
      omega
    show ((nth n).number + 1).toNat = _
    rw [hadd, toNat_nth (n + 1)]
    omega

theorem lt_next {id : FactId} (h : id.next ≠ id) : id.number < id.next.number := by
  unfold next at *
  split at h
  · exact absurd rfl h
  · rename_i hmax
    rw [if_neg hmax, UInt64.lt_iff_toNat_lt, UInt64.toNat_add, UInt64.toNat_one]
    have hlt := id.number.toNat_lt
    have hne : id.number.toNat ≠ 2 ^ 64 - 1 := fun heq => hmax (UInt64.toNat_inj.mp (by simpa using heq))
    omega

theorem le_next (id : FactId) : id.number ≤ id.next.number := by
  by_cases h : id.next = id
  · rw [h]
    exact UInt64.le_refl _
  · exact UInt64.le_of_lt (lt_next h)

/-- Places with the same id stay together: past the last id all have that one. -/
theorem nth_add_congr {m n : Nat} (h : nth m = nth n) (i : Nat) : nth (m + i) = nth (n + i) := by
  have := congrArg (·.number.toNat) h
  simp only [toNat_nth] at this
  exact ext_toNat (by rw [toNat_nth, toNat_nth]; omega)

theorem first_le_nth (n : Nat) : first.number ≤ (nth n).number := by
  rw [UInt64.le_iff_toNat_le, toNat_nth]
  have : first.number.toNat = 1024 := rfl
  omega

/-- Below the last id a place is known by its id. -/
theorem nth_inj {m n : Nat} (hm : m < 2 ^ 64 - 1024) (hn : n < 2 ^ 64 - 1024)
    (h : nth m = nth n) : m = n := by
  have := congrArg (·.number.toNat) h
  simp only [toNat_nth] at this
  omega

theorem nth_lt_nth {m n : Nat} (hn : n < 2 ^ 64 - 1024) :
    (nth m).number < (nth n).number ↔ m < n := by
  rw [UInt64.lt_iff_toNat_lt, toNat_nth, toNat_nth]
  omega

/-- An id between the first one and one that a place has is the id of an earlier place. -/
theorem exists_nth_of_lt {r : FactId} {n : Nat} (hfirst : first.number ≤ r.number)
    (hlt : r.number < (nth n).number) : ∃ m, m < n ∧ r = nth m := by
  rw [UInt64.le_iff_toNat_le] at hfirst
  rw [UInt64.lt_iff_toNat_lt, toNat_nth] at hlt
  have hf : first.number.toNat = 1024 := rfl
  refine ⟨r.number.toNat - 1024, by omega, ext_toNat ?_⟩
  rw [toNat_nth]
  omega

end FactId

/-! ## Logs -/

/-- A reference of a fact with the given id may only go to an earlier id. -/
def FactId.RefersTo (id r : FactId) : Prop := first.number ≤ r.number ∧ r.number < id.number

/-- Facts have the ids of their places. -/
def Numbered (log : List Fact) : Prop := ∀ (n : Nat) (f : Fact), log[n]? = some f → f.id = .nth n

namespace Numbered

variable {log : List Fact}

theorem nil : Numbered [] := fun _ _ h => by simp at h

theorem append {more : List Fact} (h : Numbered log)
    (hmore : ∀ (n : Nat) (f : Fact), more[n]? = some f → f.id = .nth (log.length + n)) :
    Numbered (log ++ more) := by
  intro n f hf
  rw [List.getElem?_append] at hf
  split at hf
  · exact h n f hf
  · rw [hmore _ f hf]
    congr 1
    omega

theorem of_append {more : List Fact} (h : Numbered (log ++ more)) : Numbered log := by
  intro n f hf
  refine h n f ?_
  rw [List.getElem?_append_left (List.getElem?_eq_some_iff.mp hf).1]
  exact hf

theorem mem_id (h : Numbered log) {f : Fact} (hf : f ∈ log) :
    ∃ n, n < log.length ∧ log[n]? = some f ∧ f.id = .nth n := by
  obtain ⟨n, hn⟩ := List.mem_iff_getElem?.mp hf
  exact ⟨n, (List.getElem?_eq_some_iff.mp hn).1, hn, h n f hn⟩

/-- In a log that does not run out of ids no two facts have the same id. -/
theorem id_inj (h : Numbered log) (hroom : log.length < 2 ^ 64 - 1024) {f g : Fact}
    (hf : f ∈ log) (hg : g ∈ log) (hid : f.id = g.id) : f = g := by
  obtain ⟨m, hm, hfm, hidm⟩ := h.mem_id hf
  obtain ⟨n, hn, hgn, hidn⟩ := h.mem_id hg
  obtain rfl := FactId.nth_inj (by omega) (by omega) (hidm.symm.trans (hid.trans hidn))
  exact Option.some.inj (hfm.symm.trans hgn)

end Numbered

/-- Facts are numbered by their place and refer to earlier facts only. -/
structure Ordered (log : List Fact) : Prop where
  numbered : Numbered log
  references : ∀ f ∈ log, ∀ r ∈ f.references, f.id.RefersTo r

namespace Ordered

variable {log : List Fact}

theorem nil : Ordered [] := ⟨.nil, fun _ h => by cases h⟩

/-- Facts can be appended that go on with the numbers. -/
theorem append {more : List Fact} (h : Ordered log)
    (hid : ∀ (n : Nat) (f : Fact), more[n]? = some f → f.id = .nth (log.length + n))
    (href : ∀ f ∈ more, ∀ r ∈ f.references, f.id.RefersTo r) : Ordered (log ++ more) where
  numbered := h.numbered.append hid
  references f hf := (List.mem_append.mp hf).elim (h.references f) (href f)

/-- The target of a reference is a fact of the log, and the only one with that id: an
id below another one is not the last id there is. -/
theorem target (h : Ordered log) {f : Fact} (hf : f ∈ log) {r : FactId} (hr : f.id.RefersTo r) :
    ∃ g ∈ log, g.id = r ∧ ∀ g' ∈ log, g'.id = r → g' = g := by
  obtain ⟨n, hn, -, hid⟩ := h.numbered.mem_id hf
  obtain ⟨m, hm, rfl⟩ := FactId.exists_nth_of_lt hr.1 (hid ▸ hr.2)
  obtain ⟨g, hg⟩ : ∃ g, log[m]? = some g := ⟨_, List.getElem?_eq_getElem (by omega)⟩
  refine ⟨g, List.mem_of_getElem? hg, h.numbered m g hg, fun g' hg' hid' => ?_⟩
  obtain ⟨m', -, hgm', hidm'⟩ := h.numbered.mem_id hg'
  have hlt := hr.2
  rw [UInt64.lt_iff_toNat_lt, hid] at hlt
  have heq := congrArg (·.number.toNat) (hidm'.symm.trans hid')
  simp only [FactId.toNat_nth] at hlt heq
  obtain rfl : m' = m := by omega
  exact Option.some.inj (hgm'.symm.trans hg)

end Ordered

/-! ## Indexes of a log -/

namespace FactIndex

/-- The index of the facts of a log. -/
def ofFacts (log : List Fact) : FactIndex := empty.addAll (log.map fun f => (f.digest, f))

theorem ofFacts_append (log : List Fact) (staged : List (Digest × Fact))
    (hdigest : ∀ e ∈ staged, e.1 = e.2.digest) :
    (ofFacts log).addAll staged = ofFacts (log ++ staged.map (·.2)) := by
  have hstaged : (staged.map (·.2)).map (fun f => (f.digest, f)) = staged := by
    rw [List.map_map]
    conv_rhs => rw [← List.map_id staged]
    exact List.map_congr_left fun e he => Prod.ext (hdigest e he).symm rfl
  rw [ofFacts, ofFacts, List.map_append, hstaged, addAll, addAll, addAll, List.foldl_append]

theorem ofFacts_snoc (log : List Fact) (f : Fact) :
    ofFacts (log ++ [f]) = (ofFacts log).add f.digest f := by
  rw [ofFacts, List.map_append, addAll, List.foldl_append]
  rfl

/-- A content digest is found at the last fact that has it. -/
theorem content_ofFacts (log : List Fact) (d : Digest) :
    (ofFacts log).content.get? d = (log.reverse.find? (·.digest = d)).map (·.id) := by
  induction log using List.reverseRecOn with
  | nil => rfl
  | append_singleton log f ih =>
      rw [ofFacts_snoc, add, SortedMap.get?_insert, List.reverse_append, List.reverse_singleton,
        List.singleton_append, List.find?_cons]
      by_cases hd : d = f.digest
      · simp [hd]
      · have hd' : ¬ f.digest = d := Ne.symm hd
        simp [hd, hd', ih]

theorem byPredicate_ofFacts (log : List Fact) (p : Predicate) :
    (ofFacts log).byPredicate.get? p =
      let ids := (log.filter (·.predicate = p)).map (·.id)
      if ids = [] then none else some ids := by
  induction log using List.reverseRecOn with
  | nil => rfl
  | append_singleton log f ih =>
      rw [ofFacts_snoc, add, SortedMap.get?_update]
      by_cases hp : p = f.predicate
      · subst hp
        simp only [if_true, ih, List.filter_append, List.map_append]
        split <;> simp_all
      · have hp' : ¬ f.predicate = p := Ne.symm hp
        simpa [hp, hp', List.filter_cons] using ih

theorem scan_ofFacts (log : List Fact) (p : Predicate) :
    (ofFacts log).scan p = (log.filter (·.predicate = p)).map (·.id) := by
  rw [scan, byPredicate_ofFacts]
  dsimp only
  split <;> simp_all

theorem mem_predicates_ofFacts {log : List Fact} {p : Predicate} :
    p ∈ (ofFacts log).byPredicate.keys ↔ ∃ f ∈ log, f.predicate = p := by
  rw [SortedMap.mem_keys_iff, byPredicate_ofFacts]
  dsimp only
  split <;> simp_all

theorem seek_ofFacts (log : List Fact) (p : Predicate) (key : Value) :
    (ofFacts log).seek p key =
      (log.filter fun f => keyDigest f.predicate f.key = keyDigest p key).map (·.id) := by
  induction log using List.reverseRecOn with
  | nil => rfl
  | append_singleton log f ih =>
      rw [seek] at ih ⊢
      rw [ofFacts_snoc, add, SortedMap.get?_update]
      by_cases hd : keyDigest p key = keyDigest f.predicate f.key
      · rw [if_pos hd, ← hd, ih, List.filter_append]
        simp [hd]
      · have hd' : ¬ keyDigest f.predicate f.key = keyDigest p key := Ne.symm hd
        rw [if_neg hd, ih, List.filter_append]
        simp [hd']

/-! ## Statistics of a log -/

/-- The tally of facts: their number and the length of their encodings, each up to
the largest number of 64 bits. -/
def tally (facts : List Fact) : Tally :=
  ⟨min facts.length (2 ^ 64 - 1), min (facts.map encodedSize).sum (2 ^ 64 - 1)⟩

theorem tally_snoc (facts : List Fact) (f : Fact) :
    (tally facts).add ⟨1, encodedSize f⟩ = tally (facts ++ [f]) := by
  simp only [tally, Tally.add, addUpTo64, List.length_append, List.length_singleton,
    List.map_append, List.sum_append, List.map_cons, List.map_nil, List.sum_singleton,
    Tally.mk.injEq]
  omega

theorem stats_ofFacts (log : List Fact) (p : Predicate) :
    (ofFacts log).stats.tallies.get? p =
      let facts := log.filter (·.predicate = p)
      if facts = [] then none else some (tally facts) := by
  induction log using List.reverseRecOn with
  | nil => rfl
  | append_singleton log f ih =>
      rw [ofFacts_snoc, add, Statistics.record, SortedMap.get?_update]
      by_cases hp : p = f.predicate
      · subst hp
        simp only [if_true, ih, List.filter_append]
        split
        · rename_i hnil
          simp [hnil, tally, Tally.add, Tally.zero, addUpTo64]
        · simp [tally_snoc]
      · have hp' : ¬ f.predicate = p := Ne.symm hp
        simpa [hp, hp', List.filter_cons] using ih

theorem mem_tallies_ofFacts {log : List Fact} {p : Predicate} :
    p ∈ (ofFacts log).stats.tallies.keys ↔ ∃ f ∈ log, f.predicate = p := by
  rw [SortedMap.mem_keys_iff, stats_ofFacts]
  dsimp only
  split <;> simp_all

end FactIndex

end Factbase
