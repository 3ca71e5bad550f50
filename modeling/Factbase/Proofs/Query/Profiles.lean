import Factbase.Proofs.Query.Expansion
import Factbase.Proofs.Query.Limits

/-!
# What a query looks at

The machine counts the facts that it looks at, in all and by predicate. To
say what is counted, it is run once more in a form that counts nothing and
lists the facts instead (`trace`): a source instruction offers candidates,
and every candidate that can be read is seen once, whether it is kept or
rejected. The bodies of derived predicates add to the same list.

The machine follows this walk and has counted its list (`Counted`). A
profile is therefore a function of what was seen, and nothing depends on
whether there is one.
-/

namespace Factbase

/-! ## Walks -/

/-- How a query comes to look at a fact. -/
inductive Cause where
  | scan
  | seek
  | lookup
  | derivation
  | dereference
deriving DecidableEq, Repr

/-- A fact that was looked at, as it was read. -/
structure Sight where
  cause : Cause
  fact : Fact

/-- The derived facts there are, and the facts seen so far. -/
structure Trail extends World where
  sights : List Sight

/-- A run that lists what it sees. -/
abbrev Walk (α : Type) := StateT Trail (Except Error) α

/-- A fact that an instruction may load: how it is read, and the frame that the rest of the
block goes on with, unless the fact is rejected. -/
structure Offer where
  read : Overlay → Except Error (Option Fact)
  keep : Fact → Option Frame

/-- The offer of a fact that is loaded whatever it is. -/
def Frame.offer (f : Frame) (dst : Nat) (read : Overlay → Except Error (Option Fact)) : Offer :=
  ⟨read, fun fact => some (f.load dst fact)⟩

/-- The offer of a fact that is rejected unless it has a key. -/
def Frame.offerWithKey (f : Frame) (dst : Nat) (key : Value)
    (read : Overlay → Except Error (Option Fact)) : Offer :=
  ⟨read, fun fact => if fact.key = key then some (f.load dst fact) else none⟩

/-- What an instruction looks at facts for, if it does. -/
def Instr.cause? : Instr → Option Cause
  | .scan _ _ => some .scan
  | .seek _ _ _ => some .seek
  | .load _ _ => some .lookup
  | .derive _ _ => some .derivation
  | .deref _ _ _ => some .dereference
  | _ => none

namespace Walk

/-- Take steps for items in turn, until one more value than allowed is yielded. -/
def visitAll {α : Type} (step : α → Sink → Walk Sink) : List α → Sink → Walk Sink
  | [], sink => return sink
  | x :: xs, sink => do
    let sink ← step x sink
    if sink.truncated then return sink else visitAll step xs sink

/-- Make up a fact of a derived predicate. It is not looked at. -/
def add (p : Predicate) (key : Value) : Walk FactId := fun t =>
  .ok (t.next, { t with
    next := t.next.next
    overlay := t.overlay.insert t.next ⟨t.next, p, key, .unit⟩ })

end Walk

/-- See what is offered, if it can be read, and go on unless it is rejected. -/
def Offer.visit (cause : Cause) (next : Frame → Sink → Walk Sink) (o : Offer) (sink : Sink) :
    Walk Sink := do
  match ← (liftM (o.read (← get).overlay) : Walk (Option Fact)) with
  | some fact =>
    modify fun t => { t with sights := t.sights ++ [⟨cause, fact⟩] }
    match o.keep fact with
    | some f => next f sink
    | none => return sink
  | none => return sink

variable {σ : Type} [FactStore σ]

/-- What an instruction offers. -/
def Instr.offers (r : Reading σ) (derive : Predicate → Walk (List FactId)) (i : Instr) (f : Frame) :
    Walk (List Offer) :=
  match i with
  | .scan p dst => return (r.scan p).map fun id => f.offer dst (r.read · id p)
  | .seek p operand dst => do
    let key := operand.eval f.regs
    return (← r.seek p key).map fun id => f.offerWithKey dst key (r.read · id p)
  | .load id dst => do
    match (← get).overlay.get? id with
    | some fact => return [f.offer dst fun _ => .ok (some fact)]
    | none =>
      match FactStore.lookup r.store id with
      | none => throw (.notFound (.fact id))
      | some stored =>
        let siblings := (FactStore.seek r.store stored.predicate stored.key).filter (· ≠ id)
        return f.offer dst (fun _ => some <$> r.readStored stored) ::
          siblings.map fun sibling => f.offer dst (r.readAny · sibling)
  | .derive p dst => do
    return (← derive p).map fun id => f.offer dst fun overlay => .ok (overlay.get? id)
  | .deref src p dst =>
    match f.regs src with
    | .fact id => return [f.offer dst (r.read · id p)]
    | _ => return []
  | _ => return []

/-- What an instruction that looks at no fact makes of a frame, whatever the evaluation. -/
def Instr.result (r : Reading σ) (i : Instr) (f : Frame) : Except Error (Option Frame) :=
  Prod.fst <$> (i.step r f).run ⟨∅, ∅, ⟨0⟩, 0, none⟩

/-- Run what is left of a block and list what is seen. -/
def trace (r : Reading σ) (derive : Predicate → Walk (List FactId)) :
    List Instr → Frame → Sink → Walk Sink
  | [], _, sink => return sink
  | .barrier keep :: _, f, sink => return sink.handOver keep f.regs
  | .emit src :: _, f, sink => return sink.yield (f.regs src)
  | i :: rest, f, sink =>
    match i.cause? with
    | some cause => do
      Walk.visitAll (Offer.visit cause (trace r derive rest)) (← i.offers r derive f) sink
    | none => do
      match ← (liftM (i.result r f) : Walk (Option Frame)) with
      | some f => trace r derive rest f sink
      | none => return sink

section Trace

variable {r : Reading σ} {derive : Predicate → Walk (List FactId)} {i : Instr} {rest : List Instr}
  {f : Frame} {sink : Sink}

/-- An instruction that looks at facts runs the rest of its block for every one that is seen and
not rejected. -/
theorem trace_of_cause {cause : Cause} (hcause : i.cause? = some cause) :
    trace r derive (i :: rest) f sink = i.offers r derive f >>= fun offers =>
      Walk.visitAll (Offer.visit cause (trace r derive rest)) offers sink := by
  rw [trace, hcause]
  · rintro keep rfl
    cases hcause
  · rintro src rfl
    cases hcause

theorem trace_of_plain (hcause : i.cause? = none) (hend : i.isEnd = false) :
    trace r derive (i :: rest) f sink = (liftM (i.result r f) : Walk (Option Frame)) >>= fun
      | some f => trace r derive rest f sink
      | none => pure sink := by
  rw [trace, hcause]
  · rintro keep rfl
    cases hend
  · rintro src rfl
    cases hend

end Trace

/-- Run a block for every one of some registers. -/
def traceBlock (r : Reading σ) (derive : Predicate → Walk (List FactId)) (limit : Option Nat)
    (block : List Instr) (frames : List Registers) : Walk Sink :=
  Walk.visitAll (fun regs sink => trace r derive block (.ofRegisters regs) sink) frames (.empty limit)

/-- Run blocks in turn. -/
def traceBlocks (r : Reading σ) (derive : Predicate → Walk (List FactId)) (limit : Option Nat) :
    List (List Instr) → List Registers → Walk Sink
  | [], _ => return .empty limit
  | [block], frames => traceBlock r derive limit block frames
  | block :: rest, frames => do
    let sink ← traceBlock r derive none block frames
    traceBlocks r derive limit rest sink.frames

/-- Run a code from registers that hold nothing. -/
def Code.trace (c : Code) (r : Reading σ) (derive : Predicate → Walk (List FactId))
    (limit : Option Nat) : Walk Sink :=
  traceBlocks r derive limit c.blocks [fun _ => .unit]

/-- The facts of a derived predicate. What its body looks at is seen as well. -/
def traceDerived (r : Reading σ) (bodies : SortedMap Predicate Code) (fuel : Nat) (p : Predicate) :
    Walk (List FactId) := do
  match (← get).derived.get? p with
  | some ids => return ids
  | none =>
    if FactStore.state r.store ≠ .complete then throw (.incomplete (.derivation p))
    match bodies.get? p, fuel with
    | none, _ | _, 0 => throw (.type (.noDerivation p))
    | some code, fuel + 1 =>
      let sink ← code.trace r (traceDerived r bodies fuel) none
      let ids ← sink.values.mapM (Walk.add p)
      modify fun t => { t with derived := t.derived.insert p ids }
      return ids

/-- Run a program and list what is seen. -/
def Program.trace (p : Program) (r : Reading σ) (limit : Option Nat) : Walk Sink :=
  p.main.trace r (traceDerived r p.derived p.derived.size) limit

/-! ## Counting what is seen -/

namespace Profile

/-- The profile of some facts that were looked at. -/
def ofSights (sights : List Sight) : Profile :=
  sights.foldl (fun f s => f.record s.fact.predicate) .empty

theorem ofSights_append (sights : List Sight) (s : Sight) :
    ofSights (sights ++ [s]) = (ofSights sights).record s.fact.predicate := by
  rw [ofSights, List.foldl_append]
  rfl

end Profile

/-- The evaluation that has counted a trail. -/
def Trail.evaluation (t : Trail) (profiled : Bool) : Evaluation :=
  ⟨t.derived, t.overlay, t.next, t.sights.length, if profiled then some (.ofSights t.sights) else none⟩

/-- Seeing a fact is counted once. -/
theorem Trail.evaluation_examined (t : Trail) (profiled : Bool) (cause : Cause) (fact : Fact) :
    Trail.evaluation { t with sights := t.sights ++ [⟨cause, fact⟩] } profiled =
      (t.evaluation profiled).examined fact.predicate := by
  rw [evaluation, evaluation, Evaluation.examined, List.length_append, Profile.ofSights_append]
  cases profiled <;> rfl

/-- The machine fails as a walk does, or gives a related result and has counted what was seen. -/
def Counted {α β : Type} (R : α → β → Prop) (m : Run α) (w : Walk β) : Prop :=
  ∀ (t : Trail) (profiled : Bool),
    match w.run t with
    | .error x => m.run (t.evaluation profiled) = .error x
    | .ok (b, t') => ∃ a, m.run (t.evaluation profiled) = .ok (a, t'.evaluation profiled) ∧ R a b

namespace Counted

variable {α β γ δ : Type} {R : α → β → Prop} {S : γ → δ → Prop} {m : Run α} {w : Walk β}

theorem pure {a : α} {b : β} (h : R a b) : Counted R (pure a) (pure b) :=
  fun _ _ => ⟨a, rfl, h⟩

theorem throw (x : Error) : Counted R (throw x) (throw x) := fun _ _ => rfl

theorem lift (x : Except Error α) :
    Counted (fun a b => a = b ∧ x = .ok b) (liftM x : Run α) (liftM x : Walk α) := by
  intro t profiled
  cases x with
  | error x => rfl
  | ok a => exact ⟨a, rfl, rfl, rfl⟩

theorem bind {f : α → Run γ} {g : β → Walk δ} (h : Counted R m w)
    (hrest : ∀ a b, R a b → Counted S (f a) (g b)) : Counted S (m >>= f) (w >>= g) := by
  intro t profiled
  have hm := h t profiled
  rw [StateT.run_bind, StateT.run_bind]
  cases hw : w.run t with
  | error x =>
      rw [hw] at hm
      rw [hm]
      rfl
  | ok res =>
      rw [hw] at hm
      obtain ⟨a, hrun, hab⟩ := hm
      rw [hrun]
      exact hrest a res.1 hab res.2 profiled

/-- A fact that is seen is counted once, for its predicate. -/
theorem see (cause : Cause) (fact : Fact) :
    Counted Eq (examine fact.predicate)
      (modify fun t => { t with sights := t.sights ++ [⟨cause, fact⟩] }) :=
  fun t profiled => ⟨(),
    congrArg (fun e => Except.ok ((), e)) (t.evaluation_examined profiled cause fact).symm, rfl⟩

/-- What is asked of an evaluation is asked of the derived facts only. -/
theorem ask {f : Evaluation → Run γ} {g : Trail → Walk δ}
    (h : ∀ (t : Trail) (profiled : Bool), Counted S (f (t.evaluation profiled)) (g t)) :
    Counted S (get >>= f) (get >>= g) :=
  fun t profiled => h t profiled t profiled

theorem visitAll {step : α → Sink → Run Sink} {step' : β → Sink → Walk Sink} {xs : List α}
    {ys : List β} (h : List.Forall₂ (fun x y => ∀ sink, Counted Eq (step x sink) (step' y sink)) xs ys)
    (sink : Sink) : Counted Eq (Factbase.visitAll step xs sink) (Walk.visitAll step' ys sink) := by
  induction h generalizing sink with
  | nil => exact pure rfl
  | cons hxy _ ih =>
      rw [Factbase.visitAll, Walk.visitAll]
      refine (hxy sink).bind fun s s' hs => ?_
      subst hs
      cases hend : s.truncated with
      | true => exact pure rfl
      | false => exact ih s

theorem mapM {f : γ → Run α} {g : γ → Walk α} (h : ∀ c, Counted Eq (f c) (g c)) (l : List γ) :
    Counted Eq (l.mapM f) (l.mapM g) := by
  induction l with
  | nil => exact pure rfl
  | cons c l ih =>
      rw [List.mapM_cons, List.mapM_cons]
      refine (h c).bind fun a a' ha => ih.bind fun as as' has => ?_
      subst ha has
      exact pure rfl

end Counted

/-! ## Instructions -/

section Instructions

variable {r : Reading σ} {derive : Predicate → Run (List FactId)}
  {derive' : Predicate → Walk (List FactId)}

/-- A step of the machine takes what is offered: it fetches the fact and counts it by its
predicate, and goes on with the frame that keeps it. -/
def Takes (step : Step Frame) (o : Offer) : Prop :=
  ∀ (cause : Cause) (next : Frame → Sink → Run Sink) (next' : Frame → Sink → Walk Sink),
    (∀ f sink, Counted Eq (next f sink) (next' f sink)) →
    ∀ sink, Counted Eq (step.into next sink) (o.visit cause next' sink)

theorem Takes.fetch {o : Offer} {p : Fact → Predicate} {keep : Fact → Step Frame}
    (hp : ∀ overlay fact, o.read overlay = .ok (some fact) → p fact = fact.predicate)
    (hkeep : ∀ fact, keep fact = (o.keep fact).elim failure pure) :
    Takes (Factbase.fetch o.read p >>= keep) o := by
  intro cause next next' hnext sink
  rw [Step.into_bind, fetch_into, visitRead, Offer.visit]
  refine .ask fun t profiled => (Counted.lift _).bind fun found found' => ?_
  rintro ⟨rfl, hread⟩
  cases found with
  | none => exact .pure rfl
  | some fact =>
      dsimp only
      rw [hp _ fact hread, hkeep]
      refine (Counted.see cause fact).bind fun _ _ _ => ?_
      cases o.keep fact with
      | none => exact .pure rfl
      | some f =>
          rw [Option.elim_some, Step.into_pure]
          exact hnext f sink

/-- A fact that is loaded, if it can be read. -/
theorem Takes.load (f : Frame) (dst : Nat) (read : Overlay → Except Error (Option Fact)) :
    Takes (f.fetch dst read) (f.offer dst read) := by
  rw [Frame.fetch, map_eq_pure_bind]
  exact Takes.fetch (o := f.offer dst read) (fun _ _ _ => rfl) fun _ => rfl

theorem Takes.loads (f : Frame) (dst : Nat) (reads : FactId → Overlay → Except Error (Option Fact))
    (ids : List FactId) :
    List.Forall₂ Takes (ids.map fun id => f.fetch dst (reads id))
      (ids.map fun id => f.offer dst (reads id)) := by
  rw [List.forall₂_map_left_iff, List.forall₂_map_right_iff]
  exact List.forall₂_same.mpr fun id _ => .load f dst (reads id)

/-- A fact that is loaded, if it can be read and has a key. -/
theorem Takes.sought (f : Frame) (dst : Nat) (key : Value) (id : FactId) (p : Predicate) :
    Takes (Factbase.fetch (r.read · id p) (fun _ => p) >>= fun fact =>
        if fact.key = key then pure (f.load dst fact) else failure)
      (f.offerWithKey dst key (r.read · id p)) := by
  refine Takes.fetch (o := f.offerWithKey dst key (r.read · id p)) (fun overlay fact h => ?_) fun fact => ?_
  · exact (Reading.read_found h).1.symm
  · by_cases hkey : fact.key = key <;> simp [Frame.offerWithKey, hkey]

/-- The steps that are drawn take what is offered, one after another. -/
def TakesAll (steps : List (Step Frame)) (offers : List Offer) : Prop :=
  ∀ (cause : Cause) (next : Frame → Sink → Run Sink) (next' : Frame → Sink → Walk Sink),
    (∀ f sink, Counted Eq (next f sink) (next' f sink)) →
    ∀ sink, Counted Eq (visitAll (fun step => step.into next) steps sink)
      (Walk.visitAll (Offer.visit cause next') offers sink)

theorem TakesAll.of_forall₂ {steps : List (Step Frame)} {offers : List Offer}
    (h : List.Forall₂ Takes steps offers) : TakesAll steps offers :=
  fun cause next next' hnext sink => .visitAll (h.imp fun _ _ ht => ht cause next next' hnext) sink

/-- A step that gives up takes nothing. -/
theorem TakesAll.failure : TakesAll [failure] [] := by
  intro cause next next' hnext sink
  rw [visitAll_singleton, Step.into_failure]
  exact .pure rfl

/-- An instruction that looks at facts draws steps that take what it offers. -/
theorem Instr.draws_counted (hderive : ∀ p, Counted Eq (derive p) (derive' p)) {i : Instr}
    {cause : Cause} (hcause : i.cause? = some cause) (f : Frame) :
    Counted TakesAll (i.draws r derive f) (i.offers r derive' f) := by
  have hloads (dst : Nat) (reads : FactId → Overlay → Except Error (Option Fact)) (ids : List FactId) :=
    TakesAll.of_forall₂ (Takes.loads f dst reads ids)
  cases i with
  | scan p dst =>
      rw [draws, offers]
      exact .pure (hloads dst (fun id overlay => r.read overlay id p) (r.scan p))
  | seek p operand dst =>
      rw [draws, offers]
      refine (Counted.lift _).bind fun ids ids' => ?_
      rintro ⟨rfl, -⟩
      refine .pure (.of_forall₂ ?_)
      rw [List.forall₂_map_left_iff, List.forall₂_map_right_iff]
      exact List.forall₂_same.mpr fun id _ => .sought f dst _ id p
  | load id dst =>
      rw [draws, offers]
      refine .ask fun t profiled => ?_
      rw [show (t.evaluation profiled).overlay = t.overlay from rfl]
      cases t.overlay.get? id with
      | some fact => exact .pure (.of_forall₂ (.cons (.load f dst _) .nil))
      | none =>
          cases FactStore.lookup r.store id with
          | none => exact .throw _
          | some stored =>
              exact .pure (.of_forall₂ (.cons (.load f dst _)
                (Takes.loads f dst (fun sibling overlay => r.readAny overlay sibling) _)))
  | derive p dst =>
      rw [draws, offers]
      refine (hderive p).bind fun ids ids' hids => ?_
      subst hids
      exact .pure (hloads dst (fun id overlay => .ok (overlay.get? id)) ids)
  | deref src p dst =>
      show Counted TakesAll (pure [Instr.step r (.deref src p dst) f]) _
      rw [step, offers]
      cases f.regs src with
      | fact id =>
          refine .pure (.of_forall₂ (.cons
            (.fetch (o := f.offer dst (r.read · id p)) (fun overlay fact h => ?_) fun _ => rfl) .nil))
          exact (Reading.read_found h).1.symm
      | _ => exact .pure .failure
  | _ => cases hcause

/-- A step that is not affected by the evaluation and leaves it alone. -/
def Step.Plain {α : Type} (m : Step α) : Prop :=
  ∃ x : Except Error (Option α), ∀ e, m.run e = (·, e) <$> x

namespace Step.Plain

variable {α β : Type}

theorem pure (a : α) : Plain (pure a) := ⟨.ok (some a), fun _ => rfl⟩

theorem failure : Plain (failure : Step α) := ⟨.ok none, fun _ => rfl⟩

theorem map_lift (x : Except Error β) (g : β → α) :
    Plain (do return g (← (liftM x : Run β)) : Step α) := by
  cases x with
  | error x => exact ⟨.error x, fun _ => rfl⟩
  | ok b => exact ⟨.ok (some (g b)), fun _ => rfl⟩

end Step.Plain

theorem Instr.isStraight_of_plain (i : Instr) (hcause : i.cause? = none) (hend : i.isEnd = false) :
    i.isStraight = true := by
  cases i with
  | scan | seek | load | derive => cases hcause
  | barrier | emit => cases hend
  | _ => rfl

/-- An instruction that looks at no fact is not affected by the evaluation. -/
theorem Instr.step_plain {i : Instr} (hi : i.cause? = none) (f : Frame) : (i.step r f).Plain := by
  cases i with
  | scan | seek | load | derive | deref => cases hi
  | barrier | emit => exact .failure
  | move | const | makeArray | makeRecord | makeAlt => exact .pure _
  | key src dst => exact .map_lift (f.loaded src) (f.put dst ·.key)
  | value src dst => exact .map_lift (f.loaded src) (f.put dst ·.value)
  | prim function src dst => exact .map_lift (orTypeError (function.apply (f.regs src))) (f.put dst ·)
  | field | elem | alt | arrayLen | startsWith =>
      rw [Instr.step]
      split
      · split
        · exact .pure _
        · exact .failure
      · exact .failure
  | eqConst | eqReg =>
      rw [Instr.step]
      split
      · exact .pure _
      · exact .failure

/-- What it makes of a frame it makes of it in the walk as well. -/
theorem Instr.step_counted {i : Instr} (hi : i.cause? = none) (f : Frame) :
    Counted Eq (i.step r f).run (liftM (i.result r f) : Walk (Option Frame)) := by
  obtain ⟨x, hx⟩ := Instr.step_plain (r := r) hi f
  have hresult : i.result r f = x := by
    rw [result, hx]
    cases x <;> rfl
  rw [hresult]
  intro t profiled
  have hrun : (i.step r f).run.run (t.evaluation profiled) = (·, t.evaluation profiled) <$> x := hx _
  rw [hrun]
  cases x with
  | error x => rfl
  | ok a => exact ⟨a, rfl, rfl⟩

/-! ## Programs -/

/-- A block does what its walk does and counts what that sees. -/
theorem exec_counted (hderive : ∀ p, Counted Eq (derive p) (derive' p)) (code : List Instr) (f : Frame)
    (sink : Sink) : Counted Eq (exec r derive code f sink) (trace r derive' code f sink) := by
  induction code generalizing f sink with
  | nil =>
      rw [exec, trace]
      exact .pure rfl
  | cons i rest ih =>
      cases hend : i.isEnd with
      | true =>
          cases i with
          | barrier keep =>
              rw [exec_barrier, trace]
              exact .pure rfl
          | emit src =>
              rw [exec_emit, trace]
              exact .pure rfl
          | _ => cases hend
      | false =>
          cases hcause : i.cause? with
          | some cause =>
              rw [exec_draws hend, trace_of_cause hcause]
              exact (i.draws_counted hderive hcause f).bind fun steps offers h => h cause _ _ ih sink
          | none =>
              rw [exec_cons (i.isStraight_of_plain hcause hend), trace_of_plain hcause hend, Step.into]
              refine (i.step_counted hcause f).bind fun found found' hfound => ?_
              subst hfound
              cases found with
              | none => exact .pure rfl
              | some f' => exact ih f' sink

theorem runBlock_counted (hderive : ∀ p, Counted Eq (derive p) (derive' p)) (limit : Option Nat)
    (block : List Instr) (frames : List Registers) :
    Counted Eq (runBlock r derive limit block frames) (traceBlock r derive' limit block frames) :=
  .visitAll (List.forall₂_same.mpr fun regs _ sink => exec_counted hderive block (.ofRegisters regs) sink) _

theorem runBlocks_counted (hderive : ∀ p, Counted Eq (derive p) (derive' p)) (limit : Option Nat)
    (blocks : List (List Instr)) (frames : List Registers) :
    Counted Eq (runBlocks r derive limit blocks frames) (traceBlocks r derive' limit blocks frames) := by
  induction blocks generalizing frames with
  | nil =>
      rw [runBlocks, traceBlocks]
      exact .pure rfl
  | cons block blocks ih =>
      cases blocks with
      | nil =>
          rw [runBlocks, traceBlocks]
          exact runBlock_counted hderive limit block frames
      | cons next blocks =>
          rw [runBlocks_cons (List.cons_ne_nil _ _), traceBlocks]
          · refine (runBlock_counted hderive none block frames).bind fun s s' hs => ?_
            subst hs
            exact ih s.frames
          · intro heq
            cases heq

theorem Code.run_counted (c : Code) (hderive : ∀ p, Counted Eq (derive p) (derive' p))
    (limit : Option Nat) : Counted Eq (c.run r derive limit) (c.trace r derive' limit) :=
  runBlocks_counted hderive limit c.blocks [fun _ => .unit]

theorem addDerived_counted (p : Predicate) (key : Value) :
    Counted Eq (addDerived p key) (Walk.add p key) :=
  fun t _ => ⟨t.next, rfl, rfl⟩

/-- Deriving facts counts what the bodies look at, and nothing for the facts that are made up. -/
theorem deriveFacts_counted (r : Reading σ) (codes : SortedMap Predicate Code) (fuel : Nat)
    (p : Predicate) : Counted Eq (deriveFacts r codes fuel p) (traceDerived r codes fuel p) := by
  unfold deriveFacts traceDerived
  refine .ask fun t profiled => ?_
  rw [show (t.evaluation profiled).derived = t.derived from rfl]
  cases t.derived.get? p with
  | some ids => exact .pure rfl
  | none =>
      by_cases hstate : FactStore.state r.store = .complete
      · simp only [hstate, ne_eq, not_true_eq_false, if_false]
        cases codes.get? p with
        | none => exact .throw _
        | some code =>
            cases fuel with
            | zero => exact .throw _
            | succ fuel =>
                refine (code.run_counted (deriveFacts_counted r codes fuel) none).bind
                  fun sink sink' hsink => ?_
                subst hsink
                refine (Counted.mapM (addDerived_counted p) sink.values).bind fun ids ids' hids => ?_
                subst hids
                exact .bind (R := Eq) (fun _ _ => ⟨_, rfl, rfl⟩) fun _ _ _ => .pure rfl
      · simp only [hstate, ne_eq, not_false_eq_true, if_true]
        exact .throw _

/-- A program does what its walk does and counts what that sees. -/
theorem Program.run_counted (p : Program) (r : Reading σ) (limit : Option Nat) :
    Counted Eq (p.run r limit) (p.trace r limit) :=
  p.main.run_counted (deriveFacts_counted r p.derived p.derived.size) limit

end Instructions

/-! ## Profiles -/

theorem foldl_addUpTo64 (l : List Nat) {n : Nat} (hn : n ≤ 2 ^ 64 - 1) :
    l.foldl addUpTo64 n = min (n + l.sum) (2 ^ 64 - 1) := by
  induction l generalizing n with
  | nil => simp [Nat.min_eq_left hn]
  | cons a l ih =>
      rw [List.foldl_cons, List.sum_cons, ih (n := addUpTo64 n a) (Nat.min_le_right _ _), addUpTo64]
      omega

namespace Profile

theorem total_eq (f : Profile) : f.total = min f.counts.values.sum (2 ^ 64 - 1) := by
  rw [total, foldl_addUpTo64 _ (Nat.zero_le _), Nat.zero_add]

/-- One more fact makes the sum of the counts one larger, unless its count is full. -/
theorem sum_record (f : Profile) (p : Predicate) :
    (f.record p).counts.values.sum + (f.counts.get? p).getD 0 =
      f.counts.values.sum + min ((f.counts.get? p).getD 0 + 1) (2 ^ 64 - 1) :=
  f.counts.sum_values_update p _

/-- What is counted for a predicate are the facts of it that were seen. -/
theorem count_ofSights (sights : List Sight) (p : Predicate) :
    ((ofSights sights).counts.get? p).getD 0 =
      min (sights.countP fun s => s.fact.predicate = p) (2 ^ 64 - 1) := by
  induction sights using List.reverseRecOn with
  | nil => rfl
  | append_singleton sights s ih =>
      rw [ofSights_append, record, SortedMap.get?_update, List.countP_append, List.countP_singleton]
      by_cases hp : p = s.fact.predicate
      · subst hp
        simp only [if_true, Option.getD_some, ih, addUpTo64, decide_true]
        omega
      · simp [hp, Ne.symm hp, ih]

theorem total_ofSights (sights : List Sight) :
    (ofSights sights).total = min sights.length (2 ^ 64 - 1) := by
  induction sights using List.reverseRecOn with
  | nil => rfl
  | append_singleton sights s ih =>
      have hsum := (ofSights sights).sum_record s.fact.predicate
      rw [total_eq] at ih
      rw [ofSights_append, total_eq, List.length_append, List.length_singleton]
      have hle : ((ofSights sights).counts.get? s.fact.predicate).getD 0 ≤
          (ofSights sights).counts.values.sum := by
        have := (ofSights sights).counts.sum_values_update s.fact.predicate fun _ => 0
        omega
      omega

/-- The counts sum to the number of facts that were seen. -/
theorem sum_ofSights {sights : List Sight} (hroom : sights.length < 2 ^ 64) :
    (ofSights sights).counts.values.sum = sights.length := by
  induction sights using List.reverseRecOn with
  | nil => rfl
  | append_singleton sights s ih =>
      rw [List.length_append, List.length_singleton] at hroom
      have hsum := (ofSights sights).sum_record s.fact.predicate
      have hcount := count_ofSights sights s.fact.predicate
      have hle := sights.countP_le_length (p := fun s' => s'.fact.predicate = s.fact.predicate)
      rw [ofSights_append, List.length_append, List.length_singleton]
      have ih := ih (by omega)
      omega

end Profile

/-- Every fact is seen for one cause. -/
theorem length_eq_causes (sights : List Sight) :
    sights.length = sights.countP (·.cause = .scan) + sights.countP (·.cause = .seek) +
      sights.countP (·.cause = .lookup) + sights.countP (·.cause = .derivation) +
      sights.countP (·.cause = .dereference) := by
  induction sights with
  | nil => rfl
  | cons s sights ih =>
      obtain ⟨cause, fact⟩ := s
      simp only [List.length_cons, List.countP_cons, ih]
      cases cause <;> simp <;> omega

/-! ## Queries -/

namespace CompiledQuery

/-- The results of a query without any count, and what was seen on the way. -/
def observe (q : CompiledQuery) (store : σ) (stored : Schema) (o : QueryOptions) :
    Except Error (List Binding × Bool × List Sight) := do
  let r : Reading σ := ⟨store, stored, q.schema, q.mode⟩
  q.touches.forM r.prepare
  let (sink, t) ← (q.program.trace r o.limit).run ⟨⟨∅, ∅, FactStore.nextId store⟩, []⟩
  let bindings ← sink.values.mapM (q.binding r t.overlay o.expand)
  return (bindings, sink.truncated, t.sights)

/-- The counts of a query are those of what it sees. -/
theorem execute_eq_observe (q : CompiledQuery) (store : σ) (stored : Schema) (o : QueryOptions) :
    q.execute store stored o = (fun (bindings, truncated, sights) =>
      ⟨bindings, truncated, sights.length, if o.profile then some (.ofSights sights) else none⟩) <$>
        q.observe store stored o := by
  rw [execute, observe, map_bind]
  refine bind_congr fun _ => ?_
  have hrun := q.program.run_counted ⟨store, stored, q.schema, q.mode⟩ o.limit
    ⟨⟨∅, ∅, FactStore.nextId store⟩, []⟩ o.profile
  have hstart : (⟨∅, ∅, FactStore.nextId store, 0, if o.profile then some .empty else none⟩ : Evaluation) =
      Trail.evaluation ⟨⟨∅, ∅, FactStore.nextId store⟩, []⟩ o.profile := rfl
  dsimp only
  rw [hstart]
  cases htrace : (q.program.trace ⟨store, stored, q.schema, q.mode⟩ o.limit).run
      ⟨⟨∅, ∅, FactStore.nextId store⟩, []⟩ with
  | error x =>
      rw [htrace] at hrun
      rw [hrun]
      rfl
  | ok res =>
      obtain ⟨sink, t⟩ := res
      rw [htrace] at hrun
      obtain ⟨sink', hrun, rfl⟩ := hrun
      rw [hrun]
      show (sink'.values.mapM (q.binding _ t.overlay o.expand) >>= fun bindings => _) =
        _ <$> (sink'.values.mapM (q.binding _ t.overlay o.expand) >>= fun bindings => _)
      rw [map_bind]
      rfl

/-- A profile changes nothing else, and it counts every fact that is looked at once, rejected
candidates and the facts that bodies look at included: the counts sum to the number of them. The
counters are of 64 bits. -/
theorem execute_profile (q : CompiledQuery) (store : σ) (stored : Schema) (o : QueryOptions) :
    q.execute store stored { o with profile := false } =
        (fun results => { results with profile := none }) <$>
          q.execute store stored { o with profile := true } ∧
      ∀ results, q.execute store stored { o with profile := true } = .ok results →
        ∃ profile sights, results.profile = some profile ∧
          q.observe store stored o = .ok (results.bindings, results.truncated, sights) ∧
          results.searched = sights.countP (·.cause = .scan) + sights.countP (·.cause = .seek) +
            sights.countP (·.cause = .lookup) + sights.countP (·.cause = .derivation) +
            sights.countP (·.cause = .dereference) ∧
          (∀ p, (profile.counts.get? p).getD 0 =
            min (sights.countP (·.fact.predicate = p)) (2 ^ 64 - 1)) ∧
          profile.total = min results.searched (2 ^ 64 - 1) ∧
          (results.searched < 2 ^ 64 → profile.counts.values.sum = results.searched) := by
  have hobserve (profile : Bool) : q.observe store stored { o with profile } = q.observe store stored o := rfl
  rw [execute_eq_observe, execute_eq_observe, hobserve, hobserve]
  constructor
  · rw [Functor.map_map]
    rfl
  · intro results h
    obtain ⟨⟨bindings, truncated, sights⟩, hseen, rfl⟩ := Outcome.map_ok_iff.mp h
    exact ⟨.ofSights sights, sights, rfl, hseen, length_eq_causes sights, Profile.count_ofSights sights,
      Profile.total_ofSights sights, Profile.sum_ofSights⟩

/-- A name that is derived from a station, and the two readings under an id. -/
theorem execute_profile_readings :
    ∃ results profile, readingsQuery.execute weatherStore weatherSchema
        { (default : QueryOptions) with profile := true } = .ok results ∧
      results.profile = some profile ∧ results.searched = 4 ∧ profile.counts.values.sum = 4 := by
  have hrun : (readingsQuery.execute weatherStore weatherSchema
      { (default : QueryOptions) with profile := true }).toOption.any (·.searched = 4) = true := by
    decide +kernel
  obtain ⟨results, hresults, hsearched⟩ := Option.any_eq_true _ _ |>.mp hrun
  have hresults := Outcome.mem_toOption_iff.mp hresults
  have hsearched : results.searched = 4 := of_decide_eq_true hsearched
  obtain ⟨profile, -, hprofile, -, -, -, -, hsum⟩ :=
    (execute_profile readingsQuery weatherStore weatherSchema default).2 results hresults
  exact ⟨results, profile, hresults, hprofile, hsearched, hsearched ▸ hsum (by omega)⟩

end CompiledQuery

end Factbase
