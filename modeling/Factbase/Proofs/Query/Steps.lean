import Factbase.Proofs.Query.Meaning

/-!
# Straight code

Between the instruction that draws candidates and the end of its block,
code runs straight on: each instruction changes the frame or gives up.
`steps` runs such code by itself, and `exec_append` splits it off.

What a step of the machine does is compared with what is meant by
`Shows`: both fail alike, or give up alike, or lead to related results;
and the derived facts stay as they are. What the machine counts is left
out of the comparison.
-/

namespace Factbase

variable {σ : Type} [FactStore σ]

/-- The derived facts of an evaluation. -/
def Evaluation.world (e : Evaluation) : World := ⟨e.derived, e.overlay, e.next⟩

/-- An evaluation after a fact was looked at. -/
def Evaluation.examined (e : Evaluation) (p : Predicate) : Evaluation :=
  { e with searched := e.searched + 1, profile := e.profile.map (·.record p) }

/-! ## Steps -/

/-- An instruction that neither draws candidates nor ends a block. -/
def Instr.isStraight : Instr → Bool
  | .scan _ _ | .seek _ _ _ | .load _ _ | .derive _ _ | .barrier _ | .emit _ => false
  | _ => true

/-- A step of a run that may give up. -/
abbrev Step (α : Type) := OptionT Run α

/-- Take a step, and go on unless it gives up. -/
def Step.into {α : Type} (m : Step α) (next : α → Sink → Run Sink) (sink : Sink) : Run Sink :=
  m.run >>= fun
    | some a => next a sink
    | none => return sink

/-- Look at a fact, if it can be read. `p` is the predicate that it counts for. -/
def fetch (read : Overlay → Except Error (Option Fact)) (p : Fact → Predicate) : Step Fact := do
  let e ← (get : Run Evaluation)
  let fact ← OptionT.mk (liftM (read e.overlay) : Run (Option Fact))
  (examine (p fact) : Run Unit)
  return fact

/-- Visit a fact, if it can be read. -/
def visitRead (read : Overlay → Except Error (Option Fact)) (visit : Fact → Sink → Run Sink)
    (sink : Sink) : Run Sink := do
  match ← (liftM (read (← get).overlay) : Run (Option Fact)) with
  | some fact => visit fact sink
  | none => return sink

/-- What a straight instruction does. -/
def Instr.step (r : Reading σ) (i : Instr) (f : Frame) : Step Frame :=
  match i with
  | .deref src p dst =>
    match f.regs src with
    | .fact id => do return f.load dst (← fetch (r.read · id p) fun _ => p)
    | _ => failure
  | .key src dst => do return f.put dst (← (liftM (f.loaded src) : Run Fact)).key
  | .value src dst => do return f.put dst (← (liftM (f.loaded src) : Run Fact)).value
  | .field src index dst =>
    match f.regs src with
    | .record fields =>
      match fields[index]? with
      | some v => return f.put dst v
      | none => failure
    | _ => failure
  | .alt src index dst =>
    match f.regs src with
    | .alt i payload => if i = index then return f.put dst payload else failure
    | _ => failure
  | .arrayLen src len =>
    match f.regs src with
    | .array items => if items.length = len then return f else failure
    | _ => failure
  | .elem src index dst =>
    match f.regs src with
    | .array items =>
      match items[index]? with
      | some v => return f.put dst v
      | none => failure
    | _ => failure
  | .eqConst src v => if f.regs src = v then return f else failure
  | .startsWith src start =>
    match f.regs src with
    | .string s => if start.toList.isPrefixOf s.toList then return f else failure
    | _ => failure
  | .eqReg a b => if f.regs a = f.regs b then return f else failure
  | .move src dst => return f.move src dst
  | .const v dst => return f.put dst v
  | .makeArray items dst => return f.put dst (.array (items.map f.regs))
  | .makeRecord fields dst => return f.put dst (.record (fields.map f.regs))
  | .makeAlt index src dst => return f.put dst (.alt index (f.regs src))
  | .prim function src dst => do
    return f.put dst (← (liftM (orTypeError (function.apply (f.regs src))) : Run Value))
  | .scan _ _ | .seek _ _ _ | .load _ _ | .derive _ _ | .barrier _ | .emit _ => failure

/-- What straight code does. -/
def steps (r : Reading σ) : List Instr → Frame → Step Frame
  | [], f => return f
  | i :: code, f => do steps r code (← i.step r f)

theorem steps_append (r : Reading σ) (code rest : List Instr) (f : Frame) :
    steps r (code ++ rest) f = steps r code f >>= steps r rest := by
  induction code generalizing f with
  | nil => simp [steps]
  | cons i code ih => simp only [List.cons_append, steps, bind_assoc, ih]

variable {r : Reading σ} {derive : Predicate → Run (List FactId)}

theorem Step.run_lift {α : Type} (x : Run α) : (liftM x : Step α).run = some <$> x :=
  (map_eq_pure_bind some x).symm

namespace Step

variable {α β : Type} (next : α → Sink → Run Sink) (sink : Sink)

@[simp] theorem into_pure (a : α) : (pure a : Step α).into next sink = next a sink := by
  rw [into, OptionT.run_pure, pure_bind]

@[simp] theorem into_failure : (failure : Step α).into next sink = pure sink := by
  rw [into, OptionT.run_failure, pure_bind]

@[simp] theorem into_lift (x : Run α) :
    (liftM x : Step α).into next sink = x >>= fun a => next a sink := by
  rw [into, run_lift, map_eq_pure_bind, bind_assoc]
  simp only [pure_bind]

theorem into_bind (m : Step β) (f : β → Step α) :
    (m >>= f).into next sink = m.into (fun b => (f b).into next) sink := by
  rw [into, into, OptionT.run_bind]
  simp only [Option.elimM, bind_assoc]
  refine bind_congr fun found => ?_
  cases found with
  | none => exact pure_bind _ _
  | some b => rfl

@[simp] theorem into_map (m : Step β) (f : β → α) :
    (f <$> m).into next sink = m.into (fun b => next (f b)) sink := by
  rw [map_eq_pure_bind, into_bind]
  exact congrArg (m.into · sink) (funext fun b => funext fun s => into_pure next s (f b))

end Step

/-- What is done with a fact that could be fetched. -/
theorem fetch_into (read : Overlay → Except Error (Option Fact)) (p : Fact → Predicate)
    (next : Fact → Sink → Run Sink) (sink : Sink) :
    (fetch read p).into next sink = visitRead read (fun fact sink => do
      examine (p fact)
      next fact sink) sink := by
  rw [fetch, Step.into_bind, Step.into_lift, visitRead]
  refine bind_congr fun e => ?_
  rw [Step.into_bind, Step.into, OptionT.run_mk]
  refine bind_congr fun found => ?_
  cases found with
  | none => rfl
  | some fact =>
      dsimp only
      rw [Step.into_bind, Step.into_lift]
      simp only [Step.into_pure]

/-- A fact that can be read is visited. -/
theorem run_visitRead {read : Overlay → Except Error (Option Fact)} {fact : Fact} {e : Evaluation}
    (visit : Fact → Sink → Run Sink) (sink : Sink) (hread : read e.overlay = .ok (some fact)) :
    (visitRead read visit sink).run e = (visit fact sink).run e := by
  show ((read e.overlay >>= fun found => Except.ok (found, e)) >>= _) = _
  rw [hread]
  rfl

/-- A fact that cannot be read is passed over. -/
theorem run_visitRead_none {read : Overlay → Except Error (Option Fact)} {e : Evaluation}
    (visit : Fact → Sink → Run Sink) (sink : Sink) (hread : read e.overlay = .ok none) :
    (visitRead read visit sink).run e = .ok (sink, e) := by
  show ((read e.overlay >>= fun found => Except.ok (found, e)) >>= _) = _
  rw [hread]
  rfl

theorem exec_cons {i : Instr} (hi : i.isStraight = true) (rest : List Instr) (f : Frame) (sink : Sink) :
    exec r derive (i :: rest) f sink = (i.step r f).into (exec r derive rest) sink := by
  cases i with
  | scan | seek | load | derive | barrier | emit => cases hi
  | deref src p dst =>
      rw [exec, Instr.step]
      cases f.regs src with
      | fact id =>
          have hfetch := fetch_into (r.read · id p) (fun _ => p)
            (fun fact => exec r derive rest (f.load dst fact)) sink
          dsimp only
          rw [bind_pure_comp, Step.into_map]
          exact hfetch.symm
      | _ => rfl
  | key src dst | value src dst | prim function src dst => 
      rw [exec, Instr.step]
      simp
  | move | const | makeArray | makeRecord | makeAlt => rfl
  | field src index dst =>
      rw [exec, Instr.step]
      cases f.regs src with
      | record fields => cases hv : fields[index]? <;> simp [hv]
      | _ => rfl
  | alt src index dst =>
      rw [exec, Instr.step]
      cases f.regs src with
      | alt i payload => by_cases h : i = index <;> simp [h]
      | _ => rfl
  | arrayLen src len =>
      rw [exec, Instr.step]
      cases f.regs src with
      | array items => by_cases h : items.length = len <;> simp [h]
      | _ => rfl
  | elem src index dst =>
      rw [exec, Instr.step]
      cases f.regs src with
      | array items => cases hv : items[index]? <;> simp [hv]
      | _ => rfl
  | eqConst src v =>
      rw [exec, Instr.step]
      by_cases h : f.regs src = v <;> simp [h]
  | startsWith src start =>
      rw [exec, Instr.step]
      cases f.regs src with
      | string s => by_cases h : start.toList.isPrefixOf s.toList <;> simp [h]
      | _ => rfl
  | eqReg a b =>
      rw [exec, Instr.step]
      by_cases h : f.regs a = f.regs b <;> simp [h]

/-- Straight code can be run by itself, before the rest of its block. -/
theorem exec_append {code : List Instr} (hcode : ∀ i ∈ code, i.isStraight = true) (rest : List Instr)
    (f : Frame) (sink : Sink) :
    exec r derive (code ++ rest) f sink = (steps r code f).into (exec r derive rest) sink := by
  induction code generalizing f sink with
  | nil => rfl
  | cons i code ih =>
      obtain ⟨hi, hrest⟩ := List.forall_mem_cons.mp hcode
      rw [List.cons_append, exec_cons hi, steps, Step.into_bind]
      refine congrArg (fun next => Step.into _ next sink) (funext fun f' => funext fun sink' => ?_)
      exact ih hrest f' sink'

/-! ## Steps and what is meant -/

/-- A step of the machine shows what is meant. -/
def Shows {α β : Type} (w : World) (P : α → β → Prop) (m : Step α) (s : Attempt β) : Prop :=
  ∀ e : Evaluation, e.world = w →
    match s.run with
    | .error x => m.run e = .error x
    | .ok b => ∃ a e', m.run e = .ok (a, e') ∧ e'.world = w ∧ Option.Rel P a b

namespace Shows

variable {α β γ δ : Type} {w : World} {P : α → β → Prop} {Q : γ → δ → Prop} {m : Step α}
  {s : Attempt β}

theorem done {a : α} {b : β} (h : P a b) : Shows w P (pure a) (pure b) :=
  fun e he => ⟨some a, e, rfl, he, .some h⟩

theorem givesUp : Shows w P failure failure :=
  fun e he => ⟨none, e, rfl, he, .none⟩

/-- The run of one step after another. -/
theorem run_bind (m : Step α) (f : α → Step γ) (e : Evaluation) :
    (m >>= f).run e = m.run e >>= fun p =>
      match p.1 with
      | some a => (f a).run p.2
      | none => .ok (none, p.2) := by
  rw [OptionT.run_bind]
  show (m.run e >>= fun p => (p.1.elim (pure none) fun a => (f a).run) p.2) = _
  refine bind_congr fun p => ?_
  cases p.1 <;> rfl

theorem andThen {f : α → Step γ} {g : β → Attempt δ} (h : Shows w P m s)
    (hrest : ∀ a b, P a b → Shows w Q (f a) (g b)) : Shows w Q (m >>= f) (s >>= g) := by
  intro e he
  have hm := h e he
  rw [run_bind, OptionT.run_bind]
  cases hs : s.run with
  | error x =>
      rw [hs] at hm
      rw [hm]
      rfl
  | ok found =>
      rw [hs] at hm
      obtain ⟨a, e', hrun, he', hrel⟩ := hm
      rw [hrun]
      cases hrel with
      | none => exact ⟨none, e', rfl, he', .none⟩
      | some hab => exact hrest _ _ hab e' he'

/-- A weaker relation is shown as well. -/
theorem imp {P' : α → β → Prop} (h : Shows w P m s) (himp : ∀ a b, P a b → P' a b) :
    Shows w P' m s := by
  intro e he
  have hm := h e he
  cases hs : s.run with
  | error x =>
      rw [hs] at hm
      exact hm
  | ok found =>
      rw [hs] at hm
      obtain ⟨a, e', hrun, he', hrel⟩ := hm
      refine ⟨a, e', hrun, he', ?_⟩
      cases hrel with
      | none => exact .none
      | some hab => exact .some (himp _ _ hab)

/-- The run of a fetch: a fact that is read is counted. -/
theorem run_fetch (read : Overlay → Except Error (Option Fact)) (p : Fact → Predicate)
    (e : Evaluation) :
    (Factbase.fetch read p).run e = read e.overlay >>= fun
      | some fact => .ok (some fact, e.examined (p fact))
      | none => .ok (none, e) := by
  rw [Factbase.fetch, run_bind, Step.run_lift]
  show (read e.overlay >>= fun found => _) >>= _ = _
  cases read e.overlay with
  | error x => rfl
  | ok found => cases found <;> rfl

/-- A fact is fetched where it is read. -/
theorem fetch (read : Overlay → Except Error (Option Fact)) (p : Fact → Predicate) :
    Shows w (fun fact fact' => fact = fact' ∧ read w.overlay = .ok (some fact'))
      (Factbase.fetch read p) (OptionT.mk (read w.overlay)) := by
  intro e he
  have hoverlay : e.overlay = w.overlay := congrArg World.overlay he
  rw [run_fetch, hoverlay, OptionT.run_mk]
  cases read w.overlay with
  | error x => rfl
  | ok found =>
      cases found with
      | none => exact ⟨none, e, rfl, he, .none⟩
      | some fact => exact ⟨some fact, e.examined (p fact), rfl, he, .some ⟨rfl, rfl⟩⟩

end Shows

end Factbase
