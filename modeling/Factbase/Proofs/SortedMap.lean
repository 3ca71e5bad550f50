import Factbase.SortedMap
import Mathlib.Algebra.GroupWithZero.Nat
import Mathlib.Data.List.Basic

/-!
# Laws of sorted maps

What a lookup finds after each operation. Since a map has exactly one
representation, two maps that answer every lookup alike are equal
(`ext_get?`), so these laws determine the operations.
-/

set_option linter.unusedSectionVars false

namespace Factbase.SortedMap

variable {κ α β : Type} [Ord κ] [Std.TransOrd κ] [Std.LawfulEqOrd κ]

/-! ## Entries and lookups -/

theorem compare_ne_eq {a b : κ} (h : a ≠ b) : compare a b ≠ .eq :=
  fun he => h (Std.LawfulEqOrd.eq_of_compare he)

@[simp] theorem get?_empty (k : κ) : (∅ : SortedMap κ α).get? k = none := rfl

/-- In an ascending list an entry is the only one of its key. -/
theorem find?_of_mem {l : List (κ × α)}
    (hasc : l.Pairwise fun a b => compare a.1 b.1 = .lt) {k : κ} {v : α} (hmem : (k, v) ∈ l) :
    l.find? (fun e => compare k e.1 == .eq) = some (k, v) := by
  induction l with
  | nil => cases hmem
  | cons hd tl ih =>
      obtain ⟨hlt, htl⟩ := List.pairwise_cons.mp hasc
      rcases List.mem_cons.mp hmem with rfl | hmem
      · simp [List.find?]
      · have hne : compare k hd.1 ≠ .eq := fun he => by
          have := hlt _ hmem
          rw [Std.LawfulEqOrd.eq_of_compare he] at this
          simp at this
        have hfalse : (compare k hd.1 == .eq) = false := by simpa using hne
        rw [List.find?, hfalse]
        exact ih htl hmem

theorem get?_eq_some_iff {m : SortedMap κ α} {k : κ} {v : α} :
    m.get? k = some v ↔ (k, v) ∈ m.entries := by
  constructor
  · intro h
    obtain ⟨⟨k', v'⟩, hfind, hv⟩ := Option.map_eq_some_iff.mp h
    cases hv
    have hk : k = k' :=
      Std.LawfulEqOrd.eq_of_compare (by simpa using List.find?_some hfind)
    subst hk
    exact List.mem_of_find?_eq_some hfind
  · intro h
    rw [get?, find?_of_mem m.ascending h]
    rfl

theorem mem_keys_iff {m : SortedMap κ α} {k : κ} : k ∈ m.keys ↔ ∃ v, m.get? k = some v := by
  simp only [keys, List.mem_map, get?_eq_some_iff]
  constructor
  · rintro ⟨⟨k', v⟩, hmem, rfl⟩
    exact ⟨v, hmem⟩
  · rintro ⟨v, hmem⟩
    exact ⟨(k, v), hmem, rfl⟩

theorem contains_iff {m : SortedMap κ α} {k : κ} : m.contains k = true ↔ ∃ v, m.get? k = some v := by
  simp [contains, Option.isSome_iff_exists]

theorem mem_values_iff {m : SortedMap κ α} {v : α} : v ∈ m.values ↔ ∃ k, m.get? k = some v := by
  simp [values, get?_eq_some_iff]

/-- The keys stand in strictly ascending order. -/
theorem keys_pairwise (m : SortedMap κ α) : m.keys.Pairwise fun a b => compare a b = .lt :=
  List.pairwise_map.mpr m.ascending

/-- Ascending lists with the same entries are equal. -/
theorem eq_of_mem_iff {l l' : List (κ × α)}
    (h : l.Pairwise fun a b => compare a.1 b.1 = .lt)
    (h' : l'.Pairwise fun a b => compare a.1 b.1 = .lt)
    (hmem : ∀ e, e ∈ l ↔ e ∈ l') : l = l' := by
  induction l generalizing l' with
  | nil =>
      cases l' with
      | nil => rfl
      | cons e _ => exact absurd ((hmem e).mpr (List.mem_cons_self ..)) List.not_mem_nil
  | cons e l ih =>
      cases l' with
      | nil => exact absurd ((hmem e).mp (List.mem_cons_self ..)) List.not_mem_nil
      | cons e' l' =>
          obtain ⟨hlt, hl⟩ := List.pairwise_cons.mp h
          obtain ⟨hlt', hl'⟩ := List.pairwise_cons.mp h'
          -- each head is below all other entries, so the heads agree
          have hirrefl : ∀ {a : κ}, compare a a ≠ .lt := by simp
          have hhead : e = e' := by
            rcases List.mem_cons.mp ((hmem e).mp (List.mem_cons_self ..)) with he | he
            · exact he
            · rcases List.mem_cons.mp ((hmem e').mpr (List.mem_cons_self ..)) with he' | he'
              · exact he'.symm
              · exact absurd (Std.TransCmp.lt_trans (hlt e' he') (hlt' e he)) hirrefl
          subst hhead
          congr 1
          refine ih hl hl' fun x => ?_
          have hx := hmem x
          simp only [List.mem_cons] at hx
          constructor
          · intro hin
            exact (hx.mp (Or.inr hin)).resolve_left fun he => hirrefl (he ▸ hlt x hin)
          · intro hin
            exact (hx.mpr (Or.inr hin)).resolve_left fun he => hirrefl (he ▸ hlt' x hin)

/-- A map is determined by its lookups. -/
theorem ext_get? {m n : SortedMap κ α} (h : ∀ k, m.get? k = n.get? k) : m = n := by
  refine ext (eq_of_mem_iff m.ascending n.ascending fun ⟨k, v⟩ => ?_)
  rw [← get?_eq_some_iff, ← get?_eq_some_iff, h]

/-! ## Insertion -/

theorem find?_insertEntry_self (k : κ) (v : α) (l : List (κ × α)) :
    (insertEntry k v l).find? (fun e => compare k e.1 == .eq) = some (k, v) := by
  induction l with
  | nil => simp [insertEntry]
  | cons hd tl ih =>
      rw [insertEntry]
      split
      · simp
      · simp
      · rename_i hgt
        have hfalse : (compare k hd.1 == .eq) = false := by simp [hgt]
        rw [List.find?, hfalse]
        exact ih

theorem find?_insertEntry_of_ne {k k' : κ} (hne : k' ≠ k) (v : α) (l : List (κ × α)) :
    (insertEntry k v l).find? (fun e => compare k' e.1 == .eq) =
      l.find? (fun e => compare k' e.1 == .eq) := by
  have hfalse : (compare k' k == .eq) = false := by simpa using compare_ne_eq hne
  induction l with
  | nil => simp [insertEntry, hfalse]
  | cons hd tl ih =>
      rw [insertEntry]
      split
      · simp [List.find?, hfalse]
      · rename_i heq
        have hhd : (compare k' hd.1 == .eq) = false := by
          rwa [← Std.LawfulEqOrd.eq_of_compare heq]
        simp [List.find?, hfalse, hhd]
      · rw [List.find?, List.find?, ih]

@[simp] theorem get?_insert_self (m : SortedMap κ α) (k : κ) (v : α) :
    (m.insert k v).get? k = some v := by
  rw [get?, insert, find?_insertEntry_self]
  rfl

theorem get?_insert_of_ne {k k' : κ} (hne : k' ≠ k) (m : SortedMap κ α) (v : α) :
    (m.insert k v).get? k' = m.get? k' := by
  rw [get?, insert, find?_insertEntry_of_ne hne]
  rfl

theorem get?_insert [DecidableEq κ] (m : SortedMap κ α) (k k' : κ) (v : α) :
    (m.insert k v).get? k' = if k' = k then some v else m.get? k' := by
  split
  · subst k'
    exact get?_insert_self m k v
  · exact get?_insert_of_ne ‹_› m v

theorem insert_self [DecidableEq κ] {m : SortedMap κ α} {k : κ} {v : α} (h : m.get? k = some v) :
    m.insert k v = m := by
  refine ext_get? fun k' => ?_
  rw [get?_insert]
  split
  · subst k'
    exact h.symm
  · rfl

theorem insert_insert [DecidableEq κ] (m : SortedMap κ α) (k : κ) (v v' : α) :
    (m.insert k v).insert k v' = m.insert k v' := by
  refine ext_get? fun k' => ?_
  simp only [get?_insert]
  split <;> rfl

theorem get?_update [DecidableEq κ] (m : SortedMap κ α) (k k' : κ) (d : α) (f : α → α) :
    (m.update k d f).get? k' = if k' = k then some (f ((m.get? k).getD d)) else m.get? k' :=
  get?_insert m k k' _

/-- Inserting many pairs, the last pair of a key counts. -/
theorem get?_insertMany [DecidableEq κ] (m : SortedMap κ α) (l : List (κ × α)) (k : κ) :
    (m.insertMany l).get? k = ((l.reverse.find? (·.1 = k)).map (·.2)).or (m.get? k) := by
  induction l generalizing m with
  | nil => rfl
  | cons e l ih =>
      have hstep : m.insertMany (e :: l) = (m.insert e.1 e.2).insertMany l := rfl
      rw [hstep, ih, get?_insert, List.reverse_cons, List.find?_append]
      by_cases hk : k = e.1
      · subst hk
        cases l.reverse.find? (·.1 = e.1) <;> simp
      · have hk' : e.1 ≠ k := Ne.symm hk
        cases l.reverse.find? (·.1 = k) <;> simp [hk, hk']

/-- What holds of the values of a map and of the pairs that are inserted holds of the
values then. -/
theorem forall_insertMany [DecidableEq κ] {P : κ → α → Prop} {m : SortedMap κ α} {l : List (κ × α)}
    (hm : ∀ k v, m.get? k = some v → P k v) (hl : ∀ e ∈ l, P e.1 e.2) {k : κ} {v : α}
    (h : (m.insertMany l).get? k = some v) : P k v := by
  rw [get?_insertMany] at h
  rcases Option.or_eq_some_iff.mp h with hfind | ⟨-, hget⟩
  · obtain ⟨e, he, rfl⟩ := Option.map_eq_some_iff.mp hfind
    have hk : e.1 = k := by simpa using List.find?_some he
    exact hk ▸ hl e (List.mem_reverse.mp (List.mem_of_find?_eq_some he))
  · exact hm k v hget

theorem forall_insertNew [DecidableEq κ] {P : κ → α → Prop} {m : SortedMap κ α} {k' : κ} {v' : α}
    (hm : ∀ k v, m.get? k = some v → P k v) (hnew : P k' v') {k : κ} {v : α}
    (h : (m.insertNew k' v').get? k = some v) : P k v := by
  rw [insertNew] at h
  split at h
  · exact hm k v h
  · rw [get?_insert] at h
    split at h
    · subst k
      cases h
      exact hnew
    · exact hm k v h

theorem insertMany_append (m : SortedMap κ α) (l l' : List (κ × α)) :
    m.insertMany (l ++ l') = (m.insertMany l).insertMany l' :=
  List.foldl_append ..

/-! ## Sizes -/

theorem length_insertEntry_le (k : κ) (v : α) (l : List (κ × α)) :
    l.length ≤ (insertEntry k v l).length := by
  induction l with
  | nil => simp [insertEntry]
  | cons hd tl ih =>
      rw [insertEntry]
      split <;> simp only [List.length_cons] <;> omega

theorem length_insertEntry_of_fresh {k : κ} {v : α} {l : List (κ × α)} (h : ∀ e ∈ l, e.1 ≠ k) :
    (insertEntry k v l).length = l.length + 1 := by
  induction l with
  | nil => simp [insertEntry]
  | cons hd tl ih =>
      have htl := ih fun e he => h e (List.mem_cons_of_mem _ he)
      rw [insertEntry]
      split
      · simp
      · rename_i heq
        exact absurd (Std.LawfulEqOrd.eq_of_compare heq).symm (h hd (List.mem_cons_self ..))
      · simp [htl]

theorem size_le_insertMany (m : SortedMap κ α) (l : List (κ × α)) :
    m.size ≤ (m.insertMany l).size := by
  induction l generalizing m with
  | nil => exact Nat.le_refl _
  | cons e l ih =>
      exact Nat.le_trans (length_insertEntry_le e.1 e.2 m.entries) (ih (m.insert e.1 e.2))

/-- Inserting a key that is not bound makes a map larger by one entry. -/
theorem size_insert_of_get?_none {m : SortedMap κ α} {k : κ} (h : m.get? k = none) (v : α) :
    (m.insert k v).size = m.size + 1 := by
  refine length_insertEntry_of_fresh fun e he hk => ?_
  have : m.get? e.1 = some e.2 := get?_eq_some_iff.mpr he
  rw [hk, h] at this
  cases this

/-- In an ascending list a key that is bound is replaced where it stands. -/
theorem length_insertEntry_of_bound {k : κ} {v w : α} {l : List (κ × α)}
    (hasc : l.Pairwise fun a b => compare a.1 b.1 = .lt) (hmem : (k, w) ∈ l) :
    (insertEntry k v l).length = l.length := by
  induction l with
  | nil => cases hmem
  | cons hd tl ih =>
      obtain ⟨hlt, htl⟩ := List.pairwise_cons.mp hasc
      rw [insertEntry]
      rcases List.mem_cons.mp hmem with rfl | hmem
      · simp
      · have hgt : compare k hd.1 = .gt := Std.OrientedCmp.gt_of_lt (hlt _ hmem)
        simp only [hgt]
        rw [List.length_cons, List.length_cons, ih htl hmem]

theorem size_insert_of_get?_some {m : SortedMap κ α} {k : κ} {w : α} (h : m.get? k = some w)
    (v : α) : (m.insert k v).size = m.size :=
  length_insertEntry_of_bound m.ascending (get?_eq_some_iff.mp h)

/-! ## Sums -/

theorem sum_insertEntry {k : κ} {v : Nat} {l : List (κ × Nat)}
    (hasc : l.Pairwise fun a b => compare a.1 b.1 = .lt) :
    ((insertEntry k v l).map (·.2)).sum +
        ((l.find? fun e => compare k e.1 == .eq).map (·.2)).getD 0 = (l.map (·.2)).sum + v := by
  induction l with
  | nil => simp [insertEntry]
  | cons hd tl ih =>
      obtain ⟨hlt, htl⟩ := List.pairwise_cons.mp hasc
      have ih := ih htl
      cases hcompare : compare k hd.1 with
      | lt =>
          have hnone : tl.find? (fun e => compare k e.1 == .eq) = none := by
            refine List.find?_eq_none.mpr fun e he => ?_
            rw [Std.TransCmp.lt_trans hcompare (hlt e he)]
            decide
          simp [insertEntry, hcompare, hnone]
          omega
      | eq =>
          simp [insertEntry, hcompare]
          omega
      | gt =>
          simp only [insertEntry, hcompare, List.map_cons, List.sum_cons, List.find?_cons]
          simp at ih ⊢
          omega

/-- The sum of the values after one of them was changed. -/
theorem sum_values_update (m : SortedMap κ Nat) (k : κ) (f : Nat → Nat) :
    (m.update k 0 f).values.sum + (m.get? k).getD 0 = m.values.sum + f ((m.get? k).getD 0) :=
  sum_insertEntry m.ascending

/-! ## Images -/

theorem get?_map (f : κ → α → β) (m : SortedMap κ α) (k : κ) :
    (m.map f).get? k = (m.get? k).map (f k) := by
  have hcomp : (fun e : κ × β => compare k e.1 == .eq) ∘ (fun e : κ × α => (e.1, f e.1 e.2)) =
      fun e => compare k e.1 == .eq := rfl
  rw [get?, get?, map, List.find?_map, hcomp]
  cases hfind : m.entries.find? (fun e => compare k e.1 == .eq) with
  | none => rfl
  | some e =>
      have hk : k = e.1 := Std.LawfulEqOrd.eq_of_compare (by simpa using List.find?_some hfind)
      subst hk
      rfl

end Factbase.SortedMap
