import Factbase.Proofs.Query.Matching

/-!
# Variables that count

In a typed body the stages bind the variables in the order of their
numbers, and mention only variables that have values by then. So a
variable that a stage mentions either has its value from an earlier stage,
and is live before the stage, or is bound by the stage itself
(`needed_of_mentioned`). What is live after a stage was live before it,
or is bound by it (`Needed.before`).
-/

namespace Factbase

variable {c : PlanContext}

/-! ## Variables that are bound -/

namespace Match

mutual
/-- A match binds the variables between those that have values before it and after it. -/
theorem mem_binds_iff : (m : Match) → {ty : Ty} → {k k' : Nat} → m.Typed c ty k k' → ∀ v,
    v ∈ m.binds ↔ k ≤ v ∧ v < k'
  | .wild, _, _, _, hm, v => by
      obtain rfl := hm
      simp [binds]
  | .bind _, _, _, _, ⟨hv, hk, _⟩, v => by
      subst hv hk
      rw [binds, List.mem_singleton]
      omega
  | .same _, _, _, _, ⟨hk, _⟩, v => by
      subst hk
      simp [binds]
  | .lit _, _, _, _, ⟨hk, _⟩, v => by
      subst hk
      simp [binds]
  | .stringStart _, _, _, _, ⟨hk, _⟩, v => by
      subst hk
      simp [binds]
  | .array items, _, _, _, ⟨_, _, hitems⟩, v => mem_bindsAll_iff items hitems v
  | .record _ fields, _, _, _, ⟨_, _, _, hfields⟩, v => mem_bindsFields_iff fields hfields v
  | .alt _ payload, _, _, _, ⟨_, _, _, _, hpayload⟩, v => mem_binds_iff payload hpayload v
  | .deref _ key, _, _, _, ⟨_, _, _, _, hkey⟩, v => mem_binds_iff key hkey v

theorem mem_bindsAll_iff : (ms : List Match) → {elem : Ty} → {k k' : Nat} →
    TypedAll c ms elem k k' → ∀ v, v ∈ bindsAll ms ↔ k ≤ v ∧ v < k'
  | [], _, _, _, hms, v => by
      obtain rfl := hms
      simp [bindsAll]
  | m :: ms, _, _, _, ⟨j, hm, hms⟩, v => by
      have hle := hm.le
      have hle' := TypedAll.le ms hms
      rw [bindsAll, List.mem_append, mem_binds_iff m hm, mem_bindsAll_iff ms hms]
      omega

theorem mem_bindsFields_iff : (ms : List (Nat × Match)) → {all : List Field} → {k k' : Nat} →
    TypedFields c ms all k k' → ∀ v, v ∈ bindsFields ms ↔ k ≤ v ∧ v < k'
  | [], _, _, _, hms, v => by
      obtain rfl := hms
      simp [bindsFields]
  | (_, m) :: ms, _, _, _, ⟨_, j, _, hm, hms⟩, v => by
      have hle := hm.le
      have hle' := TypedFields.le ms hms
      rw [bindsFields, List.mem_append, mem_binds_iff m hm, mem_bindsFields_iff ms hms]
      omega
end

end Match

theorem Outcome.Matched.le {o : Outcome} {m : Match} {k k' : Nat} (h : o.Matched c m k k') :
    k ≤ k' := by
  cases o with
  | fact p => exact Match.Typed.le m h
  | anyFact => exact Nat.le_of_eq h.2.symm
  | value ty => exact Match.Typed.le m h

theorem Outcome.Matched.mem_binds_iff {o : Outcome} {m : Match} {k k' : Nat}
    (h : o.Matched c m k k') (v : Nat) : v ∈ m.binds ↔ k ≤ v ∧ v < k' := by
  cases o with
  | fact p => exact Match.mem_binds_iff m h v
  | anyFact =>
      obtain ⟨rfl, rfl⟩ := h
      simp [Match.binds]
  | value ty => exact Match.mem_binds_iff m h v

theorem Supply.Typed.le {s : Supply} {o : Outcome} {k k' : Nat} (h : s.Typed c o k k') : k ≤ k' := by
  cases s with
  | facts p derived key value =>
      obtain ⟨-, d, i, -, -, -, hkey, hvalue⟩ := h
      exact Nat.le_trans hkey.le hvalue.le
  | factId id => exact Nat.le_of_eq h.2.symm
  | prim function arg => exact Nat.le_of_eq h.2.1.symm
  | expr e => exact Nat.le_of_eq h.1.symm

namespace Stage

/-- A stage binds the variables between those that have values before it and after it. -/
theorem Typed.mem_binds_iff {s : Stage} {o : Outcome} {k k' : Nat} (h : s.Typed c o k k') (v : Nat) :
    v ∈ s.binds ↔ k ≤ v ∧ v < k' := by
  obtain ⟨supply, m⟩ := s
  obtain ⟨j, hsupply, hm⟩ := h
  have hbinds := hm.mem_binds_iff v
  have hle := hm.le
  cases supply with
  | facts p derived key value =>
      obtain ⟨-, d, i, -, -, -, hkey, hvalue⟩ := hsupply
      have hle' := hkey.le
      have hle'' := hvalue.le
      rw [binds, List.mem_append, List.mem_append, hbinds, Match.mem_binds_iff key hkey,
        Match.mem_binds_iff value hvalue]
      omega
  | factId id =>
      obtain ⟨-, rfl⟩ := hsupply
      exact hbinds
  | prim function arg =>
      obtain ⟨-, rfl, -⟩ := hsupply
      exact hbinds
  | expr e =>
      obtain ⟨rfl, -⟩ := hsupply
      exact hbinds

theorem Typed.le {s : Stage} {o : Outcome} {k k' : Nat} (h : s.Typed c o k k') : k ≤ k' := by
  obtain ⟨j, hsupply, hm⟩ := h
  exact Nat.le_trans hsupply.le hm.le

theorem TypedAll.le {ss : List Stage} {first o : Outcome} {k k' : Nat}
    (hss : TypedAll c first ss o k k') : k ≤ k' := by
  induction ss generalizing first k with
  | nil => exact Nat.le_of_eq hss.2.symm
  | cons s ss ih =>
      obtain ⟨o', j, hs, hrest⟩ := hss
      exact Nat.le_trans hs.le (ih hrest)

end Stage

/-! ## Variables that are needed -/

/-- Of `k` variables that have values, those that the stages after some others need; and all
variables that have no value yet. -/
def Needed (n k : Nat) (before after : List Stage) (v : Nat) : Prop :=
  k ≤ v ∨ v ∈ liveBetween n before after

/-- Stages that have bound the first `k` variables. -/
def Bound (k : Nat) (before : List Stage) : Prop := ∀ v, v < k ↔ ∃ s ∈ before, v ∈ s.binds

theorem Bound.nil : Bound 0 [] := fun v => by simp

theorem Bound.snoc {k k' : Nat} {before : List Stage} (h : Bound k before) {s : Stage} {o : Outcome}
    (hs : s.Typed c o k k') : Bound k' (before ++ [s]) := by
  intro v
  have hle := hs.le
  have hbinds := hs.mem_binds_iff v
  constructor
  · intro hv
    by_cases hvk : v < k
    · obtain ⟨s', hs', hmem⟩ := (h v).mp hvk
      exact ⟨s', List.mem_append_left _ hs', hmem⟩
    · exact ⟨s, List.mem_append_right _ (List.mem_singleton_self s), hbinds.mpr ⟨by omega, hv⟩⟩
  · rintro ⟨s', hs', hmem⟩
    rcases List.mem_append.mp hs' with hs' | hs'
    · exact Nat.lt_of_lt_of_le ((h v).mpr ⟨s', hs', hmem⟩) hle
    · obtain rfl := List.mem_singleton.mp hs'
      exact (hbinds.mp hmem).2

theorem mem_liveBetween {n v : Nat} {before after : List Stage} :
    v ∈ liveBetween n before after ↔
      v < n ∧ (∃ s ∈ before, v ∈ s.binds) ∧ ∃ s ∈ after, v ∈ s.mentions := by
  simp [liveBetween]

theorem liveBetween_nil {n : Nat} {after : List Stage} : liveBetween n [] after = [] := by
  refine List.eq_nil_iff_forall_not_mem.mpr fun v hv => ?_
  obtain ⟨-, ⟨s, hs, -⟩, -⟩ := mem_liveBetween.mp hv
  cases hs

/-- What a stage mentions is needed before it. -/
theorem needed_of_mentioned {n k : Nat} {before after : List Stage} {s : Stage} (hbound : Bound k before)
    (hn : k ≤ n) (hs : s ∈ after) {v : Nat} (hv : v ∈ s.mentions) : Needed n k before after v := by
  by_cases hk : k ≤ v
  · exact .inl hk
  · exact .inr (mem_liveBetween.mpr ⟨by omega, (hbound v).mp (by omega), s, hs, hv⟩)

/-- What is needed after a stage is needed before it. -/
theorem Needed.before {n k k' : Nat} {before rest : List Stage} {s : Stage} {o : Outcome}
    (hs : s.Typed c o k k') {v : Nat} (h : Needed n k' (before ++ [s]) rest v) :
    Needed n k before (s :: rest) v := by
  rcases h with h | h
  · exact .inl (Nat.le_trans hs.le h)
  · obtain ⟨hn, ⟨s', hs', hbinds⟩, s'', hs'', hmentions⟩ := mem_liveBetween.mp h
    rcases List.mem_append.mp hs' with hs' | hs'
    · exact .inr (mem_liveBetween.mpr
        ⟨hn, ⟨s', hs', hbinds⟩, s'', List.mem_cons_of_mem s hs'', hmentions⟩)
    · obtain rfl := List.mem_singleton.mp hs'
      exact .inl ((hs.mem_binds_iff v).mp hbinds).1

/-! ## The blocks of stages -/

theorem blocksOf_cons {n : Nat} {before rest : List Stage} {s s' : Stage} :
    (blocksOf n before (s :: s' :: rest)).1 =
      ((s.code n).1 ++ [.barrier (liveBetween n (before ++ [s]) (s' :: rest))]) ::
        (blocksOf n (before ++ [s]) (s' :: rest)).1 := by
  rw [blocksOf]
  exact fun heq => nomatch heq

theorem blocksOf_ne_nil {n : Nat} {before rest : List Stage} {s : Stage} :
    (blocksOf n before (s :: rest)).1 ≠ [] := by
  cases rest with
  | nil => exact fun heq => nomatch heq
  | cons s' rest =>
      rw [blocksOf_cons]
      exact fun heq => nomatch heq

end Factbase
