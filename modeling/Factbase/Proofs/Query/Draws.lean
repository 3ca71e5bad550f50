import Factbase.Proofs.Outcome
import Factbase.Proofs.Query.Gathering

/-!
# Instructions draw steps

Every instruction that does not end its block does the same thing: it
draws some steps, each of which may give the frame that the rest of the
block goes on with, and the rest is run for one step after another
(`exec_draws`). A source draws a step for every candidate, and a straight
instruction is its only step.

Drawing is where derived predicates are computed. A step reads facts and
counts them, and changes nothing else (`Step.Counts`).
-/

namespace Factbase

variable {σ : Type} [FactStore σ] {r : Reading σ} {derive : Predicate → Run (List FactId)}

/-- Whether an instruction ends its block. -/
def Instr.isEnd : Instr → Bool
  | .barrier _ | .emit _ => true
  | _ => false

/-- Load a fact in a register, if it can be read. -/
def Frame.fetch (f : Frame) (dst : Nat) (read : Overlay → Except Error (Option Fact)) : Step Frame :=
  (f.load dst ·) <$> Factbase.fetch read (·.predicate)

/-- The steps that an instruction draws. -/
def Instr.draws (r : Reading σ) (derive : Predicate → Run (List FactId)) (i : Instr) (f : Frame) :
    Run (List (Step Frame)) :=
  match i with
  | .scan p dst => return (r.scan p).map fun id => f.fetch dst (r.read · id p)
  | .seek p operand dst => do
    let key := operand.eval f.regs
    return (← r.seek p key).map fun id => do
      let fact ← Factbase.fetch (r.read · id p) fun _ => p
      if fact.key = key then return f.load dst fact else failure
  | .load id dst => do
    match (← get).overlay.get? id with
    | some fact => return [f.fetch dst fun _ => .ok (some fact)]
    | none =>
      match FactStore.lookup r.store id with
      | none => throw (.notFound (.fact id))
      | some stored =>
        let siblings := (FactStore.seek r.store stored.predicate stored.key).filter (· ≠ id)
        return f.fetch dst (fun _ => some <$> r.readStored stored) ::
          siblings.map fun sibling => f.fetch dst (r.readAny · sibling)
  | .derive p dst => do
    return (← derive p).map fun id => f.fetch dst fun overlay => .ok (overlay.get? id)
  | i => return [i.step r f]

/-- The derived predicates that an instruction computes. -/
def Instr.demands : Instr → List Predicate
  | .derive p _ => [p]
  | _ => []

/-! ## Running the rest for every step -/

theorem visitAll_map {α β : Type} (step : β → Sink → Run Sink) (g : α → β) (xs : List α) (sink : Sink) :
    visitAll step (xs.map g) sink = visitAll (fun x => step (g x)) xs sink := by
  induction xs generalizing sink with
  | nil => rfl
  | cons x xs ih =>
      rw [List.map_cons, visitAll, visitAll]
      refine bind_congr fun sink' => ?_
      rw [ih]

theorem visitAll_singleton {α : Type} (step : α → Sink → Run Sink) (x : α) (sink : Sink) :
    visitAll step [x] sink = step x sink :=
  funext fun e => run_visitAll_singleton step x sink e

theorem Frame.fetch_into (f : Frame) (dst : Nat) (read : Overlay → Except Error (Option Fact))
    (next : Frame → Sink → Run Sink) (sink : Sink) :
    (f.fetch dst read).into next sink = visitRead read (fun fact sink => do
      examine fact.predicate
      next (f.load dst fact) sink) sink := by
  rw [Frame.fetch, Step.into_map, Factbase.fetch_into]

/-- A fact that is there, and can be read or not. -/
theorem visitRead_sure (fact : Except Error Fact) (visit : Fact → Sink → Run Sink) (sink : Sink) :
    visitRead (fun _ => some <$> fact) visit sink =
      (liftM fact : Run Fact) >>= fun fact => visit fact sink := by
  funext e
  cases fact <;> rfl

/-- An instruction that does not end its block runs the rest for the steps that it draws. -/
theorem exec_draws {i : Instr} (hi : i.isEnd = false) (rest : List Instr) (f : Frame) (sink : Sink) :
    exec r derive (i :: rest) f sink =
      i.draws r derive f >>= fun steps =>
        visitAll (fun step => step.into (exec r derive rest)) steps sink := by
  cases i with
  | barrier | emit => cases hi
  | scan p dst =>
      rw [exec, Instr.draws, pure_bind, visitAll_map]
      exact congrArg (visitAll · _ sink) (funext fun id => funext fun sink' =>
        (f.fetch_into dst (r.read · id p) _ sink').symm)
  | seek p operand dst =>
      rw [exec, Instr.draws, bind_assoc]
      refine bind_congr fun ids => ?_
      rw [pure_bind, visitAll_map]
      refine congrArg (visitAll · _ sink) (funext fun id => funext fun sink' => ?_)
      rw [Step.into_bind, Factbase.fetch_into]
      refine bind_congr fun e => bind_congr fun found => ?_
      cases found with
      | none => rfl
      | some fact =>
          refine bind_congr fun _ => ?_
          by_cases hkey : fact.key = operand.eval f.regs <;> simp [hkey]
  | load id dst =>
      rw [exec, Instr.draws, bind_assoc]
      refine bind_congr fun e => ?_
      cases e.overlay.get? id with
      | some fact =>
          dsimp only
          rw [pure_bind, visitAll_singleton, Frame.fetch_into]
          rfl
      | none =>
          cases FactStore.lookup r.store id with
          | none => rfl
          | some stored =>
              dsimp only
              rw [pure_bind, visitAll, Frame.fetch_into, visitRead_sure, bind_assoc]
              refine bind_congr fun fact => bind_congr fun sink' => ?_
              rw [visitAll_map]
              refine congrArg (ite _ _) (congrArg (visitAll · _ sink') (funext fun sibling =>
                funext fun sink'' => ?_))
              rw [Frame.fetch_into]
              rfl
  | derive p dst =>
      rw [exec, Instr.draws, bind_assoc]
      refine bind_congr fun ids => ?_
      rw [pure_bind, visitAll_map]
      refine congrArg (visitAll · ids sink) (funext fun id => funext fun sink' => ?_)
      rw [Frame.fetch_into]
      rfl
  | _ =>
      show _ = (pure [Instr.step r _ f] : Run (List (Step Frame))) >>= _
      rw [pure_bind, visitAll_singleton]
      exact exec_cons rfl rest f sink

/-! ## What drawing and stepping change -/

namespace Step

variable {α β : Type}

/-- A step reads facts and counts them, and nothing else. -/
def Counts (m : Step α) : Prop :=
  ∀ e a e', m.run e = .ok (a, e') → e'.world = e.world ∧ e.searched ≤ e'.searched

namespace Counts

theorem pure (a : α) : Counts (Pure.pure a) := by
  intro e b e' h
  cases h
  exact ⟨rfl, Nat.le_refl _⟩

theorem failure : Counts (failure : Step α) := by
  intro e b e' h
  cases h
  exact ⟨rfl, Nat.le_refl _⟩

theorem lift (x : Except Error α) : Counts (liftM (liftM x : Run α) : Step α) := by
  intro e b e' h
  cases x <;> cases h
  exact ⟨rfl, Nat.le_refl _⟩

theorem bind {m : Step α} {k : α → Step β} (hm : m.Counts) (hk : ∀ a, (k a).Counts) :
    Counts (m >>= k) := by
  intro e b e' h
  rw [Shows.run_bind] at h
  obtain ⟨⟨found, e₁⟩, hfound, h⟩ := Outcome.bind_ok_iff.mp h
  obtain ⟨hworld, hsearched⟩ := hm e found e₁ hfound
  cases found with
  | none =>
      cases h
      exact ⟨hworld, hsearched⟩
  | some a =>
      obtain ⟨hworld', hsearched'⟩ := hk a e₁ b e' h
      exact ⟨hworld'.trans hworld, Nat.le_trans hsearched hsearched'⟩

theorem map {m : Step α} (f : α → β) (hm : m.Counts) : Counts (f <$> m) := by
  rw [map_eq_pure_bind]
  exact hm.bind fun a => .pure (f a)

theorem fetch (read : Overlay → Except Error (Option Fact)) (p : Fact → Predicate) :
    Counts (Factbase.fetch read p) := by
  intro e a e' h
  rw [Shows.run_fetch] at h
  obtain ⟨found, -, h⟩ := Outcome.bind_ok_iff.mp h
  cases found with
  | none =>
      cases h
      exact ⟨rfl, Nat.le_refl _⟩
  | some fact =>
      cases h
      exact ⟨rfl, Nat.le_succ _⟩

end Counts

end Step

theorem Instr.step_counts (i : Instr) (f : Frame) : (i.step r f).Counts := by
  cases i with
  | scan | seek | load | derive | barrier | emit => exact .failure
  | move | const | makeArray | makeRecord | makeAlt => exact .pure _
  | key | value | prim => exact (Step.Counts.lift _).bind fun _ => .pure _
  | deref src p dst =>
      rw [Instr.step]
      split
      · exact (Step.Counts.fetch _ _).bind fun _ => .pure _
      · exact .failure
  | field | elem | alt | arrayLen | startsWith =>
      rw [Instr.step]
      split
      · split
        · exact .pure _
        · exact .failure
      · exact .failure
  | eqConst | eqReg =>
      rw [Instr.step]
      split
      · exact .pure _
      · exact .failure

theorem lift_ok_iff {α : Type} {x : Except Error α} {e e' : Evaluation} {a : α} :
    (liftM x : Run α).run e = .ok (a, e') ↔ x = .ok a ∧ e' = e := by
  cases x with
  | error z =>
      constructor
      · intro h
        cases h
      · rintro ⟨h, -⟩
        cases h
  | ok b =>
      constructor
      · intro h
        cases h
        exact ⟨rfl, rfl⟩
      · rintro ⟨h, rfl⟩
        cases h
        rfl

/-- What the steps of an instruction are drawn from: only `derive` may change anything, and no
step does. -/
theorem Instr.draws_cases {i : Instr} {f : Frame} {e e' : Evaluation} {steps : List (Step Frame)}
    (h : (i.draws r derive f).run e = .ok (steps, e')) :
    (∀ step ∈ steps, step.Counts) ∧
      (i.demands = [] ∧ e' = e ∨
        ∃ p dst ids, i = .derive p dst ∧ (derive p).run e = .ok (ids, e')) := by
  have hfetch (dst : Nat) (read : Overlay → Except Error (Option Fact)) :
      (f.fetch dst read).Counts := .map _ (.fetch _ _)
  have hmap {dst : Nat} {reads : FactId → Overlay → Except Error (Option Fact)} {ids : List FactId} :
      ∀ step ∈ ids.map fun id => f.fetch dst (reads id), step.Counts :=
    List.forall_mem_map.mpr fun id _ => hfetch dst (reads id)
  cases i with
  | scan p dst =>
      cases h
      exact ⟨hmap, .inl ⟨rfl, rfl⟩⟩
  | seek p operand dst =>
      obtain ⟨ids, e₁, hids, hsteps⟩ := Outcome.stateT_bind_ok_iff.mp h
      obtain ⟨-, rfl⟩ := lift_ok_iff.mp hids
      cases hsteps
      refine ⟨List.forall_mem_map.mpr fun id _ => (Step.Counts.fetch _ _).bind fun fact => ?_, .inl ⟨rfl, rfl⟩⟩
      split
      · exact .pure _
      · exact .failure
  | load id dst =>
      obtain ⟨_, e₁, he, h⟩ := Outcome.stateT_bind_ok_iff.mp h
      cases he
      cases hget : e.overlay.get? id with
      | some fact =>
          simp only [hget] at h
          cases h
          exact ⟨List.forall_mem_singleton.mpr (hfetch dst _), .inl ⟨rfl, rfl⟩⟩
      | none =>
          cases hlookup : FactStore.lookup r.store id with
          | none =>
              simp only [hget, hlookup] at h
              cases h
          | some stored =>
              simp only [hget, hlookup] at h
              cases h
              exact ⟨List.forall_mem_cons.mpr ⟨hfetch dst _, hmap⟩, .inl ⟨rfl, rfl⟩⟩
  | derive p dst =>
      obtain ⟨ids, e₁, hids, h⟩ := Outcome.stateT_bind_ok_iff.mp h
      cases h
      exact ⟨hmap, .inr ⟨p, dst, ids, rfl, hids⟩⟩
  | _ =>
      cases h
      exact ⟨List.forall_mem_singleton.mpr (Instr.step_counts _ f), .inl ⟨rfl, rfl⟩⟩

end Factbase
