import Factbase.Proofs.Query.Programs
import Factbase.Proofs.Query.Reads
import Factbase.Proofs.Query.Registers

/-!
# Running a block in one frame

A machine need not keep a frame for every candidate. It can run a whole
block in one frame and take nothing back when a candidate is given up
(`execInPlace`). The next candidate then finds in the registers whatever
was left there. Compiled code does not notice: it looks only at what it
has set on its own way through the block, and at what was there when the
block began, which it does not set (`SetsOnce`).

So with one frame for a block, the program of a typed plan does the same
to the last detail: it yields the same values, looks at as many facts, and
fails with the same errors (`Plan.Typed.runInPlace_compile`).
-/

namespace Factbase

variable {σ : Type} [FactStore σ]

/-! ## The machine with one frame -/

/-- Take steps for items in turn, each in the frame that the last one has left, until one more
value than allowed is yielded. -/
def visitInPlace {α : Type} (step : α → Frame × Sink → Run (Frame × Sink)) :
    List α → Frame × Sink → Run (Frame × Sink)
  | [], s => return s
  | x :: xs, s => do
    let s ← step x s
    if s.2.truncated then return s else visitInPlace step xs s

/-- The steps that an instruction draws, as `Instr.draws` has them, but so that each of them can
be taken in any frame. -/
def Instr.drawsIn (r : Reading σ) (derive : Predicate → Run (List FactId)) (i : Instr) (f : Frame) :
    Run (List (Frame → Step Frame)) :=
  match i with
  | .scan p dst => return (r.scan p).map fun id f => f.fetch dst (r.read · id p)
  | .seek p operand dst => do
    let key := operand.eval f.regs
    return (← r.seek p key).map fun id f => do
      let fact ← Factbase.fetch (r.read · id p) fun _ => p
      if fact.key = key then return f.load dst fact else failure
  | .load id dst => do
    match (← get).overlay.get? id with
    | some fact => return [fun f => f.fetch dst fun _ => .ok (some fact)]
    | none =>
      match FactStore.lookup r.store id with
      | none => throw (.notFound (.fact id))
      | some stored =>
        let siblings := (FactStore.seek r.store stored.predicate stored.key).filter (· ≠ id)
        return (fun f => f.fetch dst fun _ => some <$> r.readStored stored) ::
          siblings.map fun sibling f => f.fetch dst (r.readAny · sibling)
  | .derive p dst => do
    return (← derive p).map fun id f => f.fetch dst fun overlay => .ok (overlay.get? id)
  | i => return [i.step r]

/-- Take a step in the one frame, and go on unless it gives up. Then the frame stays as it is. -/
def Step.inPlace (next : Frame × Sink → Run (Frame × Sink)) (step : Frame → Step Frame)
    (s : Frame × Sink) : Run (Frame × Sink) := do
  match ← (step s.1).run with
  | some f => next (f, s.2)
  | none => return s

/-- Run what is left of a block in one frame. -/
def execInPlace (r : Reading σ) (derive : Predicate → Run (List FactId)) :
    List Instr → Frame × Sink → Run (Frame × Sink)
  | [], s => return s
  | .barrier keep :: _, (f, sink) => return (f, sink.handOver keep f.regs)
  | .emit src :: _, (f, sink) => return (f, sink.yield (f.regs src))
  | i :: rest, (f, sink) => do
    visitInPlace (Step.inPlace (execInPlace r derive rest)) (← i.drawsIn r derive f) (f, sink)

/-- Run a block for every one of some registers, in one frame for each. -/
def runBlockInPlace (r : Reading σ) (derive : Predicate → Run (List FactId)) (limit : Option Nat)
    (block : List Instr) (frames : List Registers) : Run Sink :=
  visitAll (fun regs sink => do
    return (← execInPlace r derive block (.ofRegisters regs, sink)).2) frames (.empty limit)

/-- Run blocks in turn. The limit is for the last of them. -/
def runBlocksInPlace (r : Reading σ) (derive : Predicate → Run (List FactId)) (limit : Option Nat) :
    List (List Instr) → List Registers → Run Sink
  | [], _ => return .empty limit
  | [block], frames => runBlockInPlace r derive limit block frames
  | block :: rest, frames => do
    let sink ← runBlockInPlace r derive none block frames
    runBlocksInPlace r derive limit rest sink.frames

/-- Run a code from registers that hold nothing. -/
def Code.runInPlace (c : Code) (r : Reading σ) (derive : Predicate → Run (List FactId))
    (limit : Option Nat) : Run Sink :=
  runBlocksInPlace r derive limit c.blocks [fun _ => .unit]

/-- The facts of a derived predicate. -/
def deriveInPlace (r : Reading σ) (bodies : SortedMap Predicate Code) (fuel : Nat) (p : Predicate) :
    Run (List FactId) := do
  match (← get).derived.get? p with
  | some ids => return ids
  | none =>
    if FactStore.state r.store ≠ .complete then throw (.incomplete (.derivation p))
    match bodies.get? p, fuel with
    | none, _ | _, 0 => throw (.type (.noDerivation p))
    | some code, fuel + 1 =>
      let sink ← code.runInPlace r (deriveInPlace r bodies fuel) none
      let ids ← sink.values.mapM (addDerived p)
      modify fun e => { e with derived := e.derived.insert p ids }
      return ids

/-- Run a program. -/
def Program.runInPlace (p : Program) (r : Reading σ) (limit : Option Nat) : Run Sink :=
  p.main.runInPlace r (deriveInPlace r p.derived p.derived.size) limit

/-! ## Runs side by side -/

/-- Two runs fail alike, or change what is evaluated alike and give related results. -/
def Parallel {α β : Type} (P : α → β → Prop) (m : Run α) (m' : Run β) : Prop :=
  ∀ e, match m.run e with
    | .error x => m'.run e = .error x
    | .ok (a, e') => ∃ b, m'.run e = .ok (b, e') ∧ P a b

namespace Parallel

variable {α β γ δ : Type} {P : α → β → Prop} {Q : γ → δ → Prop} {m : Run α} {m' : Run β}

theorem pure {a : α} {b : β} (h : P a b) : Parallel P (pure a) (pure b) := fun _ => ⟨b, rfl, h⟩

theorem throw (x : Error) : Parallel P (throw x) (throw x) := fun _ => rfl

theorem refl (m : Run α) : Parallel Eq m m := by
  intro e
  cases hm : m.run e with
  | error x => rfl
  | ok res => exact ⟨res.1, rfl, rfl⟩

theorem bind {f : α → Run γ} {g : β → Run δ} (h : Parallel P m m')
    (hrest : ∀ a b, P a b → Parallel Q (f a) (g b)) : Parallel Q (m >>= f) (m' >>= g) := by
  intro e
  have hm := h e
  rw [StateT.run_bind, StateT.run_bind]
  cases hrun : m.run e with
  | error x =>
      rw [hrun] at hm
      rw [hm]
      rfl
  | ok res =>
      rw [hrun] at hm
      obtain ⟨b, hrun', hab⟩ := hm
      rw [hrun']
      exact hrest res.1 b hab res.2

/-- One run, and what follows it in two ways. -/
theorem after (m : Run α) {f : α → Run γ} {g : α → Run δ} (h : ∀ a, Parallel Q (f a) (g a)) :
    Parallel Q (m >>= f) (m >>= g) :=
  (refl m).bind fun a _ hab => hab ▸ h a

theorem imp {P' : α → β → Prop} (h : Parallel P m m') (himp : ∀ a b, P a b → P' a b) :
    Parallel P' m m' := by
  intro e
  have hm := h e
  cases hrun : m.run e with
  | error x =>
      rw [hrun] at hm
      exact hm
  | ok res =>
      rw [hrun] at hm
      obtain ⟨b, hrun', hab⟩ := hm
      exact ⟨b, hrun', himp res.1 b hab⟩

/-- Runs that give the same are the same. -/
theorem eq {m m' : Run α} (h : Parallel Eq m m') : m' = m := by
  funext e
  have hm := h e
  cases hrun : m.run e with
  | error x =>
      rw [hrun] at hm
      exact hm.trans hrun.symm
  | ok res =>
      rw [hrun] at hm
      obtain ⟨a, hrun', rfl⟩ := hm
      exact hrun'.trans hrun.symm

/-- Steps for related items. -/
theorem visitAll {R : Sink → Sink → Prop} (htruncated : ∀ s t, R s t → s.truncated = t.truncated)
    {step : α → Sink → Run Sink} {step' : β → Sink → Run Sink}
    (hstep : ∀ a b, P a b → ∀ s t, R s t → Parallel R (step a s) (step' b t)) {xs : List α}
    {ys : List β} (h : List.Forall₂ P xs ys) {s t : Sink} (hst : R s t) :
    Parallel R (Factbase.visitAll step xs s) (Factbase.visitAll step' ys t) := by
  induction h generalizing s t with
  | nil => exact .pure hst
  | cons hab _ ih =>
      rw [Factbase.visitAll, Factbase.visitAll]
      refine (hstep _ _ hab s t hst).bind fun s' t' hst' => ?_
      rw [htruncated s' t' hst']
      split
      · exact .pure hst'
      · exact ih hst'

end Parallel

/-- Two steps fail alike, or give up alike, or give related results. -/
def Step.Parallel {α β : Type} (P : α → β → Prop) (m : Step α) (m' : Step β) : Prop :=
  Factbase.Parallel (Option.Rel P) m.run m'.run

namespace Step.Parallel

variable {α β γ δ : Type} {P : α → β → Prop} {Q : γ → δ → Prop}

theorem pure {a : α} {b : β} (h : P a b) : Parallel P (pure a) (pure b) :=
  Factbase.Parallel.pure (.some h)

theorem failure : Parallel P (failure : Step α) (failure : Step β) := Factbase.Parallel.pure .none

/-- One step, and what follows it in two ways. -/
theorem after (m : Step α) {f : α → Step γ} {g : α → Step δ} (h : ∀ a, Parallel Q (f a) (g a)) :
    Parallel Q (m >>= f) (m >>= g) := by
  unfold Parallel
  rw [OptionT.run_bind, OptionT.run_bind]
  refine .after m.run fun found => ?_
  cases found with
  | none => exact Factbase.Parallel.pure .none
  | some a => exact h a

end Step.Parallel

/-! ## Frames that agree -/

/-- Two frames agree in what registers are known to hold. -/
structure Frame.Agrees (H : Holding) (f g : Frame) : Prop where
  regs : ∀ reg, H.held reg → g.regs reg = f.regs reg
  facts : ∀ reg, H.loaded reg → g.facts reg = f.facts reg

namespace Frame.Agrees

variable {H : Holding} {f g f' : Frame} {i : Instr} {dst : Nat}

theorem refl (H : Holding) (f : Frame) : f.Agrees H f := ⟨fun _ _ => rfl, fun _ _ => rfl⟩

/-- What was held before an instruction, and is the same after it, agrees as well. -/
theorem before (h : f.Agrees H f') (h' : f'.Agrees (H.after i) g) : f.Agrees H g where
  regs reg hreg := (h'.regs reg (.inl hreg)).trans (h.regs reg hreg)
  facts reg hreg := (h'.facts reg (.inl hreg)).trans (h.facts reg hreg)

theorem map_regs (h : f.Agrees H g) {regs : List Nat} (hregs : ∀ reg ∈ regs, H.held reg) :
    regs.map g.regs = regs.map f.regs :=
  List.map_congr_left fun reg hreg => h.regs reg (hregs reg hreg)

/-- After a test the registers are the same. -/
theorem test (h : f.Agrees H g) (hsets : i.sets? = none) (hloads : i.loads? = none) :
    f.Agrees (H.after i) g where
  regs reg hreg := h.regs reg (hreg.resolve_right fun hset => nomatch hsets.symm.trans hset)
  facts reg hreg := h.facts reg (hreg.resolve_right fun hload => nomatch hloads.symm.trans hload)

/-- Both frames are changed where an instruction sets a register, which was not held. -/
theorem set {g' : Frame} (h : f.Agrees H g) (hi : i.Within H) (hsets : i.sets? = some dst)
    (hf : ∀ reg, reg ≠ dst → f'.regs reg = f.regs reg ∧ f'.facts reg = f.facts reg)
    (hg : ∀ reg, reg ≠ dst → g'.regs reg = g.regs reg ∧ g'.facts reg = g.facts reg)
    (hregs : g'.regs dst = f'.regs dst) (hfacts : i.loads? = some dst → g'.facts dst = f'.facts dst) :
    f'.Agrees (H.after i) g' ∧ f.Agrees H f' := by
  have hne {reg : Nat} (hreg : H.held reg) : reg ≠ dst := fun heq => hi.sets dst hsets (heq ▸ hreg)
  refine ⟨⟨fun reg hreg => ?_, fun reg hreg => ?_⟩, fun reg hreg => (hf reg (hne hreg)).1,
    fun reg hreg => (hf reg (hne (H.held_of_loaded reg hreg))).2⟩
  · rcases hreg with hheld | hset
    · rw [(hg reg (hne hheld)).1, (hf reg (hne hheld)).1, h.regs reg hheld]
    · obtain rfl := Option.some.inj (hsets.symm.trans hset)
      exact hregs
  · rcases hreg with hloaded | hload
    · have hdst := hne (H.held_of_loaded reg hloaded)
      rw [(hg reg hdst).2, (hf reg hdst).2, h.facts reg hloaded]
    · obtain rfl := Option.some.inj (hsets.symm.trans (Instr.sets?_of_loads? hload))
      exact hfacts hload

theorem put (h : f.Agrees H g) (hi : i.Within H) (hsets : i.sets? = some dst) (hloads : i.loads? = none)
    (v : Value) : (f.put dst v).Agrees (H.after i) (g.put dst v) ∧ f.Agrees H (f.put dst v) :=
  h.set hi hsets (fun _ hne => ⟨if_neg hne, rfl⟩) (fun _ hne => ⟨if_neg hne, rfl⟩)
    ((if_pos rfl).trans (if_pos rfl).symm) fun hload => nomatch hloads.symm.trans hload

theorem load (h : f.Agrees H g) (hi : i.Within H) (hloads : i.loads? = some dst) (fact : Fact) :
    (f.load dst fact).Agrees (H.after i) (g.load dst fact) ∧ f.Agrees H (f.load dst fact) :=
  h.set hi (Instr.sets?_of_loads? hloads) (fun _ hne => ⟨if_neg hne, if_neg hne⟩)
    (fun _ hne => ⟨if_neg hne, if_neg hne⟩) ((if_pos rfl).trans (if_pos rfl).symm)
    fun _ => (if_pos rfl).trans (if_pos rfl).symm

/-- With the contents of a register a fact may be moved that was left there. It is not looked at. -/
theorem move (h : f.Agrees H g) {src : Nat} (hi : (Instr.move src dst).Within H) :
    (f.move src dst).Agrees (H.after (.move src dst)) (g.move src dst) ∧
      f.Agrees H (f.move src dst) := by
  have hsrc := h.regs src (hi.reads src (List.mem_singleton_self src))
  refine h.set hi rfl (fun _ hne => ⟨if_neg hne, if_neg hne⟩) (fun _ hne => ⟨if_neg hne, if_neg hne⟩) ?_
    fun hload => nomatch hload
  exact (if_pos rfl).trans (hsrc.trans (if_pos rfl).symm)

end Frame.Agrees

/-! ## Steps in frames that agree -/

/-- A step does the same in frames that agree, leads to frames that agree in more, and leaves what
was held as it is. -/
def Instr.Respects (H : Holding) (i : Instr) (step : Frame → Step Frame) : Prop :=
  ∀ f g : Frame, f.Agrees H g →
    Step.Parallel (fun f' g' => f'.Agrees (H.after i) g' ∧ f.Agrees H f') (step f) (step g)

namespace Instr.Within

variable {H : Holding} {i : Instr} {r : Reading σ} {derive : Predicate → Run (List FactId)}

/-- A candidate is loaded. -/
theorem fetch_respects (hi : i.Within H) {dst : Nat} (hloads : i.loads? = some dst)
    (read : Overlay → Except Error (Option Fact)) : i.Respects H (·.fetch dst read) := by
  intro f g hfg
  dsimp only
  rw [Frame.fetch, Frame.fetch, map_eq_pure_bind, map_eq_pure_bind]
  refine .after _ fun fact => ?_
  exact .pure (hfg.load hi hloads fact)

/-- A straight instruction does the same in frames that agree. -/
theorem step_respects (hi : i.Within H) : i.Respects H (i.step r) := by
  intro f g hfg
  have hsrc : ∀ src ∈ i.reads, g.regs src = f.regs src := fun src hreads =>
    hfg.regs src (hi.reads src hreads)
  cases i with
  | scan | seek | load | derive | barrier | emit => exact .failure
  | deref src p dst =>
      rw [Instr.step, Instr.step, hsrc src (List.mem_singleton_self src)]
      split
      · refine .after _ fun fact => ?_
        exact .pure (hfg.load hi rfl fact)
      · exact .failure
  | key src dst =>
      rw [Instr.step, Instr.step, Frame.loaded, Frame.loaded, hfg.facts src (hi.opens src rfl)]
      refine .after _ fun fact => ?_
      exact .pure (hfg.put hi rfl rfl fact.key)
  | value src dst =>
      rw [Instr.step, Instr.step, Frame.loaded, Frame.loaded, hfg.facts src (hi.opens src rfl)]
      refine .after _ fun fact => ?_
      exact .pure (hfg.put hi rfl rfl fact.value)
  | field src index dst | elem src index dst =>
      rw [Instr.step, Instr.step, hsrc src (List.mem_singleton_self src)]
      split
      · split
        · exact .pure (hfg.put hi rfl rfl _)
        · exact .failure
      · exact .failure
  | alt src index dst =>
      rw [Instr.step, Instr.step, hsrc src (List.mem_singleton_self src)]
      split
      · split
        · exact .pure (hfg.put hi rfl rfl _)
        · exact .failure
      · exact .failure
  | arrayLen src len | startsWith src start =>
      rw [Instr.step, Instr.step, hsrc src (List.mem_singleton_self src)]
      split
      · split
        · exact .pure ⟨hfg.test rfl rfl, .refl H f⟩
        · exact .failure
      · exact .failure
  | eqConst src v =>
      rw [Instr.step, Instr.step, hsrc src (List.mem_singleton_self src)]
      split
      · exact .pure ⟨hfg.test rfl rfl, .refl H f⟩
      · exact .failure
  | eqReg a b =>
      rw [Instr.step, Instr.step, hsrc a (List.mem_cons_self ..),
        hsrc b (List.mem_cons_of_mem a (List.mem_singleton_self b))]
      split
      · exact .pure ⟨hfg.test rfl rfl, .refl H f⟩
      · exact .failure
  | move src dst => exact .pure (hfg.move hi)
  | const v dst => exact .pure (hfg.put hi rfl rfl v)
  | makeArray regs dst | makeRecord regs dst =>
      rw [Instr.step, Instr.step, show regs.map g.regs = regs.map f.regs from hfg.map_regs hi.reads]
      exact .pure (hfg.put hi rfl rfl _)
  | makeAlt index src dst =>
      rw [Instr.step, Instr.step, hsrc src (List.mem_singleton_self src)]
      exact .pure (hfg.put hi rfl rfl _)
  | prim function src dst =>
      rw [Instr.step, Instr.step, hsrc src (List.mem_singleton_self src)]
      refine .after _ fun v => ?_
      exact .pure (hfg.put hi rfl rfl v)

/-- What an instruction draws depends only on what registers hold. -/
theorem drawsIn_parallel (hi : i.Within H) {f g : Frame} (hfg : f.Agrees H g) :
    Parallel (fun steps steps' => steps = steps' ∧ ∀ step ∈ steps, i.Respects H step)
      (i.drawsIn r derive f) (i.drawsIn r derive g) := by
  cases i with
  | scan p dst =>
      exact .pure ⟨rfl, List.forall_mem_map.mpr fun id _ => hi.fetch_respects rfl (r.read · id p)⟩
  | seek p operand dst =>
      have hkey : operand.eval g.regs = operand.eval f.regs := by
        cases operand with
        | const v => rfl
        | reg src => exact hfg.regs src (hi.reads src (List.mem_singleton_self src))
      rw [Instr.drawsIn, Instr.drawsIn, hkey]
      refine .after _ fun ids => ?_
      refine .pure ⟨rfl, List.forall_mem_map.mpr fun id _ f g hfg => ?_⟩
      refine .after _ fun fact => ?_
      split
      · exact .pure (hfg.load hi rfl fact)
      · exact .failure
  | load id dst =>
      refine .after _ fun e => ?_
      cases e.overlay.get? id with
      | some fact =>
          exact .pure ⟨rfl, List.forall_mem_singleton.mpr
            (hi.fetch_respects rfl fun _ => .ok (some fact))⟩
      | none =>
          cases FactStore.lookup r.store id with
          | none => exact .throw _
          | some stored =>
              refine .pure ⟨rfl, List.forall_mem_cons.mpr
                ⟨?_, List.forall_mem_map.mpr fun sibling _ => ?_⟩⟩
              · exact hi.fetch_respects rfl fun _ => some <$> r.readStored stored
              · exact hi.fetch_respects rfl (r.readAny · sibling)
  | derive p dst =>
      refine .after _ fun ids => ?_
      refine .pure ⟨rfl, List.forall_mem_map.mpr fun id _ => ?_⟩
      exact hi.fetch_respects rfl fun overlay => .ok (overlay.get? id)
  | _ => exact .pure ⟨rfl, List.forall_mem_singleton.mpr hi.step_respects⟩

end Instr.Within

/-! ## Running code in one frame -/

section Exec

variable {r : Reading σ} {derive : Predicate → Run (List FactId)}

/-- The steps that an instruction draws in a frame are those that can be taken in any, taken there. -/
theorem Instr.draws_eq (i : Instr) (f : Frame) :
    i.draws r derive f = (do return (← i.drawsIn r derive f).map (· f)) := by
  cases i with
  | scan p dst =>
      rw [draws, drawsIn, pure_bind, List.map_map]
      rfl
  | seek p operand dst =>
      rw [draws, drawsIn, bind_assoc]
      refine bind_congr fun ids => ?_
      rw [pure_bind, List.map_map]
      rfl
  | load id dst =>
      rw [draws, drawsIn, bind_assoc]
      refine bind_congr fun e => ?_
      cases e.overlay.get? id with
      | some fact => rfl
      | none =>
          cases FactStore.lookup r.store id with
          | none => rfl
          | some stored =>
              dsimp only
              rw [pure_bind, List.map_cons, List.map_map]
              rfl
  | derive p dst =>
      rw [draws, drawsIn, bind_assoc]
      refine bind_congr fun ids => ?_
      rw [pure_bind, List.map_map]
      rfl
  | _ => rfl

theorem exec_drawsIn {i : Instr} (hi : i.isEnd = false) (rest : List Instr) (f : Frame) (sink : Sink) :
    exec r derive (i :: rest) f sink =
      i.drawsIn r derive f >>= fun steps =>
        visitAll (fun step => (step f).into (exec r derive rest)) steps sink := by
  rw [exec_draws hi, Instr.draws_eq, bind_assoc]
  refine bind_congr fun steps => ?_
  rw [pure_bind, visitAll_map]

theorem execInPlace_drawsIn {i : Instr} (hi : i.isEnd = false) (rest : List Instr) (f : Frame)
    (sink : Sink) :
    execInPlace r derive (i :: rest) (f, sink) =
      i.drawsIn r derive f >>= fun steps =>
        visitInPlace (Step.inPlace (execInPlace r derive rest)) steps (f, sink) := by
  cases i with
  | barrier | emit => cases hi
  | _ => rfl

/-- Sinks that have been given the same, but for contents of registers that do not count. -/
structure Sink.Alike (counts : Nat → Prop) (s t : Sink) : Prop where
  seen : s.seen = t.seen
  frames : List.Forall₂ (fun regs regs' => ∀ reg, counts reg → regs' reg = regs reg) s.frames t.frames
  values : s.values = t.values
  limit : s.limit = t.limit
  truncated : s.truncated = t.truncated

namespace Sink.Alike

variable {counts : Nat → Prop} {s t : Sink}

theorem empty (limit : Option Nat) : (Sink.empty limit).Alike counts (.empty limit) :=
  ⟨rfl, .nil, rfl, rfl, rfl⟩

theorem handOver (h : s.Alike counts t) {keep : List Nat} {regs regs' : Registers}
    (hkeep : keep.map regs' = keep.map regs) (hregs : ∀ reg, counts reg → regs' reg = regs reg) :
    (s.handOver keep regs).Alike counts (t.handOver keep regs') := by
  rw [Sink.handOver, Sink.handOver, hkeep, ← h.seen]
  split
  · exact h
  · exact ⟨rfl, List.rel_append h.frames (.cons hregs .nil), h.values, h.limit, h.truncated⟩

theorem yield (h : s.Alike counts t) (v : Value) : (s.yield v).Alike counts (t.yield v) := by
  rw [Sink.yield, Sink.yield, ← h.values, ← h.limit]
  split
  · exact h
  · split
    · exact ⟨h.seen, h.frames, rfl, rfl, rfl⟩
    · exact ⟨h.seen, h.frames, rfl, rfl, h.truncated⟩

end Sink.Alike

/-- An instruction that ends a block with what registers hold. Where it hands over, they hold all that
counts. -/
inductive Instr.Ends (counts : Nat → Prop) (H : Holding) : Instr → Prop
  | barrier {keep : List Nat} : (∀ reg ∈ keep, H.held reg) → (∀ reg, counts reg → H.held reg) →
    Ends counts H (.barrier keep)
  | emit {out : Nat} : H.held out → Ends counts H (.emit out)

variable {counts : Nat → Prop} {H H' : Holding} {f g : Frame} {s t : Sink}

/-- One frame and sink is as good as another: the frames agree, and the sinks are alike. -/
def AsGood (counts : Nat → Prop) (H : Holding) (f : Frame) (t : Sink) (s : Frame × Sink) : Prop :=
  f.Agrees H s.1 ∧ t.Alike counts s.2

/-- Steps that each leave the frame as good as it was. -/
theorem visitInPlace_parallel {α : Type} {step : α → Sink → Run Sink}
    {step' : α → Frame × Sink → Run (Frame × Sink)} {xs : List α}
    (hstep : ∀ x ∈ xs, ∀ t s, AsGood counts H f t s →
      Parallel (AsGood counts H f) (step x t) (step' x s))
    {t : Sink} {s : Frame × Sink} (h : AsGood counts H f t s) :
    Parallel (AsGood counts H f) (visitAll step xs t) (visitInPlace step' xs s) := by
  induction xs generalizing t s with
  | nil => exact .pure h
  | cons x xs ih =>
      obtain ⟨hx, hxs⟩ := List.forall_mem_cons.mp hstep
      rw [visitAll, visitInPlace]
      refine (hx t s h).bind fun t' s' h' => ?_
      rw [h'.2.truncated]
      split
      · exact .pure h'
      · exact ih hxs h'

/-- Code that sets registers once does the same in one frame. It leaves the frame as good as it was. -/
theorem execInPlace_parallel (derive : Predicate → Run (List FactId)) {code : List Instr}
    {last : Instr} (hcode : SetsOnce H code H') (hlast : last.Ends counts H') {t : Sink}
    {s : Frame × Sink} (h : AsGood counts H f t s) :
    Parallel (AsGood counts H f) (exec r derive (code ++ [last]) f t)
      (execInPlace r derive (code ++ [last]) s) := by
  induction hcode generalizing f t s with
  | nil H =>
      obtain ⟨g, sink⟩ := s
      obtain ⟨hfg, halike⟩ := h
      cases hlast with
      | barrier hkeep hcounts =>
          exact .pure ⟨hfg, halike.handOver (hfg.map_regs hkeep) fun reg hreg =>
            hfg.regs reg (hcounts reg hreg)⟩
      | emit hout =>
          rw [List.nil_append, exec, execInPlace, hfg.regs _ hout]
          exact .pure ⟨hfg, halike.yield _⟩
  | @cons H H' i code hi hcode ih =>
      obtain ⟨g, sink⟩ := s
      rw [List.cons_append, exec_drawsIn hi.goesOn, execInPlace_drawsIn hi.goesOn]
      refine (hi.drawsIn_parallel h.1).bind fun steps _ hsteps => ?_
      obtain ⟨rfl, hrespects⟩ := hsteps
      refine visitInPlace_parallel (fun step hstep t s hts => ?_) h
      refine Parallel.bind (hrespects step hstep f s.1 hts.1) fun found found' hfound => ?_
      cases hfound with
      | none => exact .pure hts
      | some hframes =>
          -- what was held before the instruction has not been set by the rest
          refine (ih hlast (s := (_, s.2)) ⟨hframes.1, hts.2⟩).imp fun t' s' hafter => ?_
          exact ⟨hframes.2.before hafter.1, hafter.2⟩

/-! ## Running blocks in one frame each -/

/-- A block does the same, run for registers that hold the same where it matters. -/
theorem runBlockInPlace_parallel (counts : Nat → Prop) {code : List Instr} {last : Instr}
    (hcode : SetsOnce H code H') (hloaded : ∀ reg, ¬ H.loaded reg) (hlast : last.Ends counts H')
    (limit : Option Nat) {frames frames' : List Registers}
    (h : List.Forall₂ (fun regs regs' => ∀ reg, H.held reg → regs' reg = regs reg) frames frames') :
    Parallel (Sink.Alike counts) (runBlock r derive limit (code ++ [last]) frames)
      (runBlockInPlace r derive limit (code ++ [last]) frames') := by
  refine Parallel.visitAll (fun _ _ halike => halike.truncated)
    (fun regs regs' hregs t t' halike => ?_) h (.empty limit)
  have hrun := execInPlace_parallel (r := r) (f := .ofRegisters regs) (s := (.ofRegisters regs', t'))
    derive hcode hlast ⟨⟨hregs, fun reg hreg => absurd hreg (hloaded reg)⟩, halike⟩
  have hall := hrun.bind (f := Pure.pure) (g := fun s => Pure.pure s.2) fun t s h => Parallel.pure h.2
  rwa [bind_pure] at hall

theorem runBlocksInPlace_cons {block : List Instr} {blocks : List (List Instr)} (hne : blocks ≠ [])
    (limit : Option Nat) (frames : List Registers) :
    runBlocksInPlace r derive limit (block :: blocks) frames =
      runBlockInPlace r derive none block frames >>= fun sink =>
        runBlocksInPlace r derive limit blocks sink.frames := by
  obtain ⟨block', blocks, rfl⟩ := List.exists_cons_of_ne_nil hne
  rw [runBlocksInPlace]
  exact fun heq => nomatch heq

/-- Blocks that set registers once do the same, run in one frame each. -/
theorem runBlocksInPlace_parallel {U : Nat → Prop} {n : Nat} {live : List Nat}
    {blocks : List (List Instr)} (hblocks : BlocksOnce U n live blocks) (limit : Option Nat)
    {frames frames' : List Registers} (h : List.Forall₂
      (fun regs regs' => ∀ reg, (Holding.start U live).held reg → regs' reg = regs reg)
      frames frames') :
    Parallel Eq (runBlocks r derive limit blocks frames)
      (runBlocksInPlace r derive limit blocks frames') := by
  induction hblocks generalizing frames frames' with
  | nil => exact .pure rfl
  | last hcode _ hout =>
      -- nothing is handed over, so the sinks are the same
      refine (runBlockInPlace_parallel (fun _ => True) hcode (fun _ h => h) (.emit hout) limit h).imp ?_
      intro s t halike
      have hframes : s.frames = t.frames := by
        refine List.forall₂_eq_eq_eq ▸ halike.frames.imp fun regs regs' hregs => ?_
        exact (funext fun reg => hregs reg trivial).symm
      obtain ⟨hseen, -, hvalues, hlimit, htruncated⟩ := halike
      cases s
      cases t
      cases hseen
      cases hframes
      cases hvalues
      cases hlimit
      cases htruncated
      rfl
  | @cons live keep code H blocks hcode _ hkeep hne _ ih =>
      rw [runBlocks_cons hne, runBlocksInPlace_cons hne]
      have hcounts : ∀ reg, (Holding.start U keep).held reg → H.held reg := by
        rintro reg (hreg | hunset)
        · exact hkeep reg hreg
        · exact hcode.held (.inr hunset)
      exact (runBlockInPlace_parallel _ hcode (fun _ h => h) (.barrier hkeep hcounts) none h).bind
        fun s t halike => ih halike.frames

end Exec

/-! ## Programs -/

variable {r : Reading σ}

/-- The code of a typed body does the same, run in one frame for each block. -/
theorem Body.Typed.runInPlace_compile {b : Body} {s : Schema} {bodied : Predicate → Prop}
    (h : b.Typed s bodied) (derive : Predicate → Run (List FactId)) (limit : Option Nat) :
    b.compile.runInPlace r derive limit = b.compile.run r derive limit :=
  (runBlocksInPlace_parallel h.blocksOnce limit (.cons (fun _ _ => rfl) .nil)).eq

/-- Derived facts are the same where the codes that compute them do the same. -/
theorem deriveInPlace_eq {bodies : SortedMap Predicate Code}
    (h : ∀ p code, bodies.get? p = some code → ∀ derive limit,
      code.runInPlace r derive limit = code.run r derive limit) (fuel : Nat) :
    deriveInPlace r bodies fuel = deriveFacts r bodies fuel := by
  induction fuel with
  | zero =>
      funext p
      unfold deriveInPlace deriveFacts
      cases bodies.get? p <;> rfl
  | succ fuel ih =>
      funext p
      unfold deriveInPlace deriveFacts
      cases hcode : bodies.get? p with
      | none => rfl
      | some code =>
          have hrun : code.runInPlace r (deriveInPlace r bodies fuel) none =
              code.run r (deriveFacts r bodies fuel) none := by rw [ih, h p code hcode]
          dsimp only
          exact hrun ▸ rfl

/-- The program of a typed plan does the same, run in one frame for each block: it yields the same
values, looks at as many facts, and fails with the same errors. -/
theorem Plan.Typed.runInPlace_compile {plan : Plan} {s : Schema} (h : plan.Typed s)
    (limit : Option Nat) : plan.compile.runInPlace r limit = plan.compile.run r limit := by
  have hcodes : ∀ p code, plan.compile.derived.get? p = some code → ∀ derive limit,
      code.runInPlace r derive limit = code.run r derive limit := by
    intro p code hcode derive limit
    obtain ⟨b, bodied, -, htyped, rfl⟩ := h.derived_code hcode
    exact htyped.runInPlace_compile derive limit
  unfold Program.runInPlace Program.run
  rw [deriveInPlace_eq hcodes]
  exact h.main.runInPlace_compile _ limit

/-- A code of a program: its own, or that of a derived predicate. -/
def Program.HasCode (p : Program) (code : Code) : Prop :=
  code = p.main ∨ ∃ q, p.derived.get? q = some code

/-- For every query that can be typed: one frame for a block is enough, of as many registers as are
written down with its code. -/
theorem Query.one_frame_suffices {s : Schema} (hs : s.Registered) (hnarrow : s.Narrow) {q : Query}
    {plan : Plan} (hplan : q.typed s = .ok plan) :
    (∀ limit, plan.compile.runInPlace r limit = plan.compile.run r limit) ∧
      ∀ code, plan.compile.HasCode code → ∀ block ∈ code.blocks, ∀ i ∈ block, ∀ reg ∈ i.registers,
        reg < code.registers := by
  have htyped := q.typed_sound hs.coherent hnarrow hplan
  refine ⟨htyped.runInPlace_compile, ?_⟩
  rintro code (rfl | ⟨p, hcode⟩)
  · exact htyped.main.registers_suffice
  · obtain ⟨b, bodied, -, hbody, rfl⟩ := htyped.derived_code hcode
    exact hbody.registers_suffice

end Factbase
