import Factbase.Proofs.Query.Courses
import Factbase.Proofs.Query.Liveness
import Factbase.Proofs.Query.Stages

/-!
# Code of bodies

Every stage of a body becomes a block, and blocks hand registers over to
one another. Registers represent environments as far as later stages
need them (`Represents`): of environments that agree there only the first
is handed over. So a block gathers what its stage keeps
(`tracks_block`), and the blocks of a body yield its values
(`tracks_blocks`).

A run with a limit may stop before it fails, and then it has given some
of the values (`Tracks`).
-/

namespace Factbase

variable {σ : Type} [FactStore σ] {r : Reading σ} {α β γ δ : Type}

/-! ## Runs and courses -/

/-- From an evaluation, a run fails as a course does, or leads to the same derived facts and a
related result, unless it is cut off. Nothing is said where the course runs out of ids. -/
def Tracks (r : Reading σ) (P : α → β → Prop) (cut : α → Prop) (m : Run α) (s : Course β)
    (e : Evaluation) : Prop :=
  match s.run e.world with
  | .ok (b, w') =>
    ∃ a e', m.run e = .ok (a, e') ∧ e'.world.Good r ∧ (e'.world = w' ∧ P a b ∨ cut a)
  | .error (.failed x) =>
    m.run e = .error x ∨ ∃ a e', m.run e = .ok (a, e') ∧ e'.world.Good r ∧ cut a
  | .error .outOfIds => True

namespace Tracks

variable {P : α → β → Prop} {Q : γ → δ → Prop} {cut : α → Prop} {cut' : γ → Prop} {m : Run α}
variable {s : Course β} {e : Evaluation}

theorem done {a : α} {b : β} (he : e.world.Good r) (h : P a b) : Tracks r P cut (pure a) (pure b) e :=
  ⟨a, e, rfl, he, .inl ⟨rfl, h⟩⟩

/-- One run after another that cannot be cut off. -/
theorem andThen {f : α → Run γ} {g : β → Course δ} (h : Tracks r P (fun _ => False) m s e)
    (hf : ∀ a b e', m.run e = .ok (a, e') → e'.world.Good r → P a b →
      Tracks r Q cut' (f a) (g b) e') :
    Tracks r Q cut' (m >>= f) (s >>= g) e := by
  unfold Tracks at *
  rw [StateT.run_bind, StateT.run_bind]
  cases hs : s.run e.world with
  | error x =>
      rw [hs] at h
      cases x with
      | outOfIds => trivial
      | failed x =>
          rcases h with hrun | ⟨_, _, _, _, hcut⟩
          · exact .inl (by rw [hrun]; rfl)
          · exact hcut.elim
  | ok res =>
      obtain ⟨b, w⟩ := res
      rw [hs] at h
      obtain ⟨a, e', hrun, hgood, hworld | hcut⟩ := h
      · obtain ⟨rfl, hab⟩ := hworld
        rw [hrun]
        exact hf a b e' hrun hgood hab
      · exact hcut.elim

theorem imp {P' : α → β → Prop} {cut'' : α → Prop} (h : Tracks r P cut m s e)
    (hP : ∀ a b, P a b → P' a b) (hcut : ∀ a, cut a → cut'' a) : Tracks r P' cut'' m s e := by
  unfold Tracks at *
  cases hs : s.run e.world with
  | error x =>
      rw [hs] at h
      cases x with
      | outOfIds => trivial
      | failed x =>
          refine h.imp_right ?_
          rintro ⟨a, e', hrun, hgood, ha⟩
          exact ⟨a, e', hrun, hgood, hcut a ha⟩
  | ok res =>
      rw [hs] at h
      obtain ⟨a, e', hrun, hgood, ha⟩ := h
      exact ⟨a, e', hrun, hgood, ha.imp (And.imp_right (hP a res.1)) (hcut a)⟩

/-- A run that cannot be cut off after all. -/
theorem uncut (h : Tracks r P cut m s e) (hnever : ∀ a, cut a → False) :
    Tracks r P (fun _ => False) m s e :=
  h.imp (fun _ _ hP => hP) hnever

/-- What is done with what a course gives. -/
theorem mapCourse {P' : α → δ → Prop} {f : β → δ} (h : Tracks r P cut m s e)
    (hP : ∀ a b, P a b → P' a (f b)) : Tracks r P' cut m (do return f (← s)) e := by
  unfold Tracks at *
  rw [StateT.run_bind]
  cases hs : s.run e.world with
  | error x =>
      rw [hs] at h
      cases x <;> exact h
  | ok res =>
      rw [hs] at h
      obtain ⟨a, e', hrun, hgood, ha⟩ := h
      exact ⟨a, e', hrun, hgood, ha.imp_left (And.imp_right (hP a res.1))⟩

/-- One run after another, where it is known what the first course yields. -/
theorem andThen_yields {E : Error → Prop} {R : β → World → Prop} {f : α → Run γ}
    {g : β → Course δ} (h : Tracks r P (fun _ => False) m s e)
    (hs : Course.Yields r E R s e.world)
    (hf : ∀ a b e', e'.world.Good r → P a b → R b e'.world → Tracks r Q cut' (f a) (g b) e') :
    Tracks r Q cut' (m >>= f) (s >>= g) e := by
  cases hrun : s.run e.world with
  | error x =>
      unfold Tracks at *
      rw [hrun] at h
      rw [StateT.run_bind, StateT.run_bind, hrun]
      cases x with
      | outOfIds => trivial
      | failed x =>
          rcases h with hm | ⟨_, _, _, _, hcut⟩
          · exact .inl (by rw [hm]; rfl)
          · exact hcut.elim
  | ok res =>
      obtain ⟨b, w⟩ := res
      unfold Tracks Course.Yields at *
      rw [hrun] at h hs
      rw [StateT.run_bind, StateT.run_bind, hrun]
      obtain ⟨a, e', hm, hgood, ⟨rfl, hab⟩ | hcut⟩ := h
      · rw [hm]
        exact hf a b e' hgood hab hs.2
      · exact hcut.elim

/-- The same run in another form. -/
theorem of_run {m' : Run α} {s' : Course β} (h : Tracks r P cut m s e) (hm : m'.run e = m.run e)
    (hs : s'.run e.world = s.run e.world) : Tracks r P cut m' s' e := by
  unfold Tracks at *
  rwa [hm, hs]

end Tracks

/-- Facts of derived predicates are computed once. -/
structure Memoizes (derive : Predicate → Run (List FactId)) : Prop where
  kept : ∀ p e ids e', (derive p).run e = .ok (ids, e') → e'.derived.get? p = some ids
  reused : ∀ p e ids, e.derived.get? p = some ids → (derive p).run e = .ok (ids, e)

/-- The facts of a derived predicate that a run computes are those that are meant. -/
def Serves (r : Reading σ) (derive : Predicate → Run (List FactId))
    (meant : Predicate → Course (List FactId)) (p : Predicate) : Prop :=
  ∀ e : Evaluation, e.world.Good r → Tracks r Eq (fun _ => False) (derive p) (meant p) e

/-! ## Registers that represent environments -/

/-- What tells an environment apart, if only some variables count. -/
def Env.key (live : List Nat) (env : Env) : List Value := live.map fun v => (env v).getD .unit

/-- Registers that stand for environments that give values to `k` variables: one for each of
those that differ in live variables. -/
structure Represents (c : PlanContext) (k : Nat) (live : List Nat) (frames : List Registers)
    (envs : List Env) : Prop where
  keys : frames.map (live.map ·) = gather [] (envs.map (Env.key live))
  unbound : ∀ regs ∈ frames, ∀ v, k ≤ v → v < c.vars.length → regs v = .unit
  typed : ∀ env ∈ envs, env.Typed c k

variable {c : PlanContext} {k k' n : Nat} {frames : List Registers} {envs : List Env}

/-- Registers hold each of the environments that they stand for, as far as these are needed. -/
theorem Represents.holds {before after : List Stage}
    (h : Represents c k (liveBetween n before after) frames envs) {regs : Registers} {env : Env}
    (hregs : regs ∈ frames) (henv : env ∈ envs)
    (hkey : (liveBetween n before after).map regs = env.key (liveBetween n before after)) :
    (Frame.ofRegisters regs).Holds c (Needed n k before after) env := by
  intro v hv hneeded
  rcases hneeded with hk | hlive
  · rw [(h.typed env henv).free v hk]
    exact h.unbound regs hregs v hk hv
  · exact List.map_inj_left.mp hkey v hlive

theorem Represents.eq_nil {live : List Nat} (h : Represents c k live frames []) : frames = [] := by
  simpa [gather_nil] using h.keys

theorem Represents.ne_nil {live : List Nat} (h : Represents c k live frames envs) (henvs : envs ≠ []) :
    frames ≠ [] := by
  rintro rfl
  obtain ⟨env, rest, rfl⟩ := List.exists_cons_of_ne_nil henvs
  have hkeys := h.keys
  have hmem : env.key live ∈ gather [] ((env :: rest).map (Env.key live)) :=
    mem_gather.mpr (.inr (List.mem_map_of_mem (List.mem_cons_self ..)))
  rw [← hkeys] at hmem
  cases hmem

/-! ## Ends of blocks -/

section Ends

variable {κ : Type} [DecidableEq κ] {w : World} {inv : Sink → Prop} {obs : Sink → List κ}
variable {derive : Predicate → Run (List FactId)} {o : Outcome} {res : Value × Env} {f : Frame}
variable {out : Nat}

omit [FactStore σ] in
theorem Gathers.of_pure {step : Sink → Sink} {key : κ}
    (h : ∀ sink, inv sink → inv (step sink) ∧
      (obs (step sink) = gather (obs sink) [key] ∨ (step sink).truncated = true)) :
    Gathers w inv obs (fun sink => pure (step sink)) (.ok [key]) := by
  intro sink e he hinv
  obtain ⟨hinv', hobs⟩ := h sink hinv
  exact .inr ⟨step sink, e, rfl, he, hinv', hobs.imp_left fun hgather => ⟨[key], rfl, hgather⟩⟩

omit [DecidableEq κ] in
theorem exec_barrier (keep : List Nat) (rest : List Instr) (f : Frame) :
    exec r derive (.barrier keep :: rest) f = fun sink => pure (sink.handOver keep f.regs) := by
  funext sink
  rw [exec]

omit [DecidableEq κ] in
theorem exec_emit (src : Nat) (rest : List Instr) (f : Frame) :
    exec r derive (.emit src :: rest) f = fun sink => pure (sink.yield (f.regs src)) := by
  funext sink
  rw [exec]

/-- What is known of a sink that registers are handed over to. -/
structure Sink.Handed (c : PlanContext) (k : Nat) (live : List Nat) (s : Sink) : Prop where
  room : s.truncated = false
  seen : ∀ l, l ∈ s.seen ↔ l ∈ s.frames.map (live.map ·)
  unbound : ∀ regs ∈ s.frames, ∀ v, k ≤ v → v < c.vars.length → regs v = .unit

/-- What is known of a sink that values are yielded to. -/
structure Sink.Yielded (o : Outcome) (limit : Option Nat) (s : Sink) : Prop where
  limited : s.limit = limit
  full : s.truncated = true → limit.isSome = true
  hold : ∀ v ∈ s.values, o.Holds v

theorem Sink.Yielded.empty {limit : Option Nat} : (Sink.empty limit).Yielded o limit where
  limited := rfl
  full hfull := by cases hfull
  hold _ hv := by cases hv

theorem Sink.Handed.empty {live : List Nat} : (Sink.empty none).Handed c k live where
  room := rfl
  seen l := by simp [Sink.empty]
  unbound _ hregs := by cases hregs

/-- The end of a block that hands over. -/
theorem gathers_barrier {M : Nat → Prop} {live : List Nat} (hlive : ∀ v ∈ live, v < c.vars.length ∧ M v)
    (hfree : ∀ v, k ≤ v → M v) (hf : Frame.Lands c M o k out f res) :
    Gathers w (Sink.Handed c k live) (fun s => s.frames.map (live.map ·))
      (exec r derive [.barrier live] f) (.ok [res.2.key live]) := by
  have hkey : live.map f.regs = res.2.key live :=
    List.map_congr_left fun v hv => hf.holds v (hlive v hv).1 (hlive v hv).2
  have hunbound : ∀ v, k ≤ v → v < c.vars.length → f.regs v = .unit := by
    intro v hk hv
    rw [hf.holds v hv (hfree v hk), hf.typed.free v hk]
    rfl
  rw [exec_barrier]
  refine Gathers.of_pure fun sink hsink => ?_
  rw [Sink.handOver, hkey]
  by_cases hseen : res.2.key live ∈ sink.seen
  · rw [if_pos (List.contains_iff_mem.mpr hseen)]
    exact ⟨hsink, .inl (by rw [gather_cons, if_pos ((hsink.seen _).mp hseen), gather_nil])⟩
  · rw [if_neg fun h => hseen (List.contains_iff_mem.mp h)]
    have hframes : (sink.frames ++ [f.regs]).map (live.map ·) =
        sink.frames.map (live.map ·) ++ [res.2.key live] := by
      rw [List.map_append, List.map_singleton, hkey]
    refine ⟨⟨hsink.room, fun l => ?_, ?_⟩, .inl ?_⟩
    · show l ∈ res.2.key live :: sink.seen ↔ l ∈ (sink.frames ++ [f.regs]).map (live.map ·)
      rw [hframes, List.mem_cons, List.mem_append, List.mem_singleton, hsink.seen, or_comm]
    · exact List.forall_mem_append.mpr ⟨hsink.unbound, List.forall_mem_singleton.mpr hunbound⟩
    · rw [gather_cons, if_neg fun h => hseen ((hsink.seen _).mpr h), gather_nil]
      exact hframes

/-- The end of a block that yields. -/
theorem gathers_emit {M : Nat → Prop} {limit : Option Nat} (hf : Frame.Lands c M o k out f res) :
    Gathers w (Sink.Yielded o limit) Sink.values (exec r derive [.emit out] f) (.ok [res.1]) := by
  rw [exec_emit]
  refine Gathers.of_pure fun sink hsink => ?_
  rw [Sink.yield, hf.value]
  by_cases hseen : res.1 ∈ sink.values
  · rw [if_pos (List.contains_iff_mem.mpr hseen)]
    exact ⟨hsink, .inl (by rw [gather_cons, if_pos hseen, gather_nil])⟩
  · rw [if_neg fun h => hseen (List.contains_iff_mem.mp h)]
    by_cases hfull : sink.limit.any (· ≤ sink.values.length) = true
    · rw [if_pos hfull]
      refine ⟨⟨hsink.limited, fun _ => ?_, hsink.hold⟩, .inr rfl⟩
      rw [← hsink.limited]
      cases hlimit : sink.limit with
      | none =>
          rw [hlimit] at hfull
          cases hfull
      | some m => rfl
    · rw [if_neg hfull]
      refine ⟨⟨hsink.limited, hsink.full, ?_⟩, .inl ?_⟩
      · exact List.forall_mem_append.mpr ⟨hsink.hold, List.forall_mem_singleton.mpr hf.fits⟩
      · rw [gather_cons, if_neg hseen, gather_nil]

end Ends

/-! ## One block -/

section Block

variable [LawfulFactStore σ] {met : Content → Prop} {log : List Fact} {s : Stage} {o : Outcome}
variable {derive : Predicate → Run (List FactId)} {meant : Predicate → Course (List FactId)}
variable {κ : Type} [DecidableEq κ] {inv : Sink → Prop} {obs : Sink → List κ} {key : Value × Env → κ}
variable {before after : List Stage} {rest : List Instr} {limit : Option Nat}

/-- What a stage does once the derived facts that it draws from are there. -/
def Stage.settled (r : Reading σ) (known : List FactId) (s : Stage) (envs : List Env) :
    Course (List (Value × Env)) := do
  let w ← get
  let kept ← Course.of (envs.mapM (s.kept r w.overlay known))
  return kept.flatten

omit [LawfulFactStore σ] in
theorem Stage.run_eq (hne : envs ≠ []) :
    s.run r meant envs = s.supply.known meant >>= fun known => s.settled r known envs := by
  rw [Stage.run, if_neg (by simpa using hne)]
  rfl

omit [LawfulFactStore σ] in
theorem Stage.run_settled (known : List FactId) (w : World) :
    (s.settled r known envs).run w =
      match collect (s.kept r w.overlay known) envs with
      | .ok kept => .ok (kept, w)
      | .error x => .error (.failed x) := by
  rw [settled, collect, StateT.run_bind, StateT.run_get, pure_bind, StateT.run_bind]
  dsimp only
  generalize envs.mapM (s.kept r w.overlay known) = x
  cases x with
  | error x => rfl
  | ok kept => rfl

/-- The code of a block tracks its stage, once the derived facts are there. -/
theorem tracks_settled (h : r.Over met log) (hfree : Collisionless met) (hc : c.schema = r.target)
    (hs : s.Typed c o k k') (hmentions : ∀ v ∈ s.mentions, Needed n k before after v)
    (hrep : Represents c k (liveBetween n before after) frames envs) {known : List FactId}
    {e : Evaluation} (he : e.world.Good r) (hknown : Stage.KnowsDerived derive e.world s known)
    (hinv : inv (.empty limit)) (hobs : obs (.empty limit) = [])
    (hend : ∀ f res, Frame.Lands c (Needed n k before after) o k' (s.code c.vars.length).2.1 f res →
      Gathers e.world inv obs (exec r derive rest f) (.ok [key res])) :
    Tracks r (fun sink kept => inv sink ∧ obs sink = gather [] (kept.map key))
      (fun sink => inv sink ∧ sink.truncated = true)
      (runBlock r derive limit ((s.code c.vars.length).1 ++ rest) frames) (s.settled r known envs) e := by
  have hgathers : Gathers e.world inv obs
      (visitAll (fun regs sink => exec r derive ((s.code c.vars.length).1 ++ rest)
        (.ofRegisters regs) sink) frames)
      (collect (fun env => List.map key <$> s.kept r e.world.overlay known env) envs) :=
    Gathers.visitFirsts hrep.keys fun regs hregs env henv hkey =>
      Stage.gathers h hfree he hc hs hmentions hknown (hrep.holds hregs henv hkey)
        (hrep.typed env henv) hend
  rw [← map_collect] at hgathers
  unfold Tracks
  rw [Stage.run_settled]
  rcases hgathers _ e rfl hinv with ⟨x, hx, hrun⟩ | ⟨sink, e', hrun, he', hinv', hall⟩
  · cases hkept : collect (s.kept r e.world.overlay known) envs with
    | error y =>
        rw [hkept] at hx
        cases hx
        exact .inl hrun
    | ok kept =>
        rw [hkept] at hx
        cases hx
  · cases hkept : collect (s.kept r e.world.overlay known) envs with
    | error y =>
        refine .inr ⟨sink, e', hrun, he' ▸ he, hinv', hall.resolve_left ?_⟩
        rintro ⟨ks, hks, -⟩
        rw [hkept] at hks
        cases hks
    | ok kept =>
        refine ⟨sink, e', hrun, he' ▸ he, hall.imp ?_ fun hfull => ⟨hinv', hfull⟩⟩
        rintro ⟨ks, hks, hgather⟩
        rw [hkept] at hks
        cases hks
        refine ⟨he', hinv', ?_⟩
        rw [hgather, hobs]

omit [LawfulFactStore σ] in
/-- A block that draws from a derived predicate may compute its facts beforehand. -/
theorem runBlock_derive (hmemo : Memoizes derive) {p : Predicate} {dst : Nat} {code : List Instr}
    (hne : frames ≠ []) (e : Evaluation) :
    (runBlock r derive limit (.derive p dst :: code) frames).run e =
      (derive p >>= fun _ => runBlock r derive limit (.derive p dst :: code) frames).run e := by
  obtain ⟨regs, frames, rfl⟩ := List.exists_cons_of_ne_nil hne
  obtain ⟨visit, hexec⟩ : ∃ visit : List FactId → Run Sink,
      exec r derive (.derive p dst :: code) (.ofRegisters regs) (.empty limit) =
        derive p >>= visit := by
    rw [exec]
    exact ⟨_, rfl⟩
  let runFrames := visitAll fun regs sink => exec r derive (.derive p dst :: code) (.ofRegisters regs) sink
  obtain ⟨after, hrun⟩ : ∃ after : Sink × Evaluation → Except Error (Sink × Evaluation), ∀ e,
      (runBlock r derive limit (.derive p dst :: code) (regs :: frames)).run e =
        (derive p).run e >>= fun found => (visit found.1).run found.2 >>= after := by
    refine ⟨fun found => if found.1.truncated then .ok found else
      (runFrames frames found.1).run found.2, fun e => ?_⟩
    rw [runBlock, run_visitAll_cons, hexec, StateT.run_bind, bind_assoc]
  rw [StateT.run_bind, hrun]
  cases hderive : (derive p).run e with
  | error x => rfl
  | ok found =>
      have hreused := hmemo.reused p found.2 found.1 (hmemo.kept p e found.1 found.2 hderive)
      show _ = (runBlock r derive limit _ _).run found.2
      rw [hrun, hreused]

/-- The code of a block tracks its stage. -/
theorem tracks_block (h : r.Over met log) (hfree : Collisionless met) (hc : c.schema = r.target)
    (hs : s.Typed c o k k') (hmentions : ∀ v ∈ s.mentions, Needed n k before after v)
    (hrep : Represents c k (liveBetween n before after) frames envs)
    (hmemo : Memoizes derive) (hserves : ∀ p, c.bodied p → Serves r derive meant p)
    {e : Evaluation} (he : e.world.Good r) (hinv : inv (.empty limit)) (hobs : obs (.empty limit) = [])
    (hend : ∀ w f res, Frame.Lands c (Needed n k before after) o k' (s.code c.vars.length).2.1 f res →
      Gathers w inv obs (exec r derive rest f) (.ok [key res])) :
    Tracks r (fun sink kept => inv sink ∧ obs sink = gather [] (kept.map key))
      (fun sink => inv sink ∧ sink.truncated = true)
      (runBlock r derive limit ((s.code c.vars.length).1 ++ rest) frames) (s.run r meant envs) e := by
  by_cases hne : envs = []
  · subst hne
    rw [hrep.eq_nil, Stage.run, if_pos List.isEmpty_nil]
    exact .done he ⟨hinv, by rw [hobs]; rfl⟩
  have hsettled {known : List FactId} {e' : Evaluation} (he' : e'.world.Good r)
      (hknown : Stage.KnowsDerived derive e'.world s known) :=
    tracks_settled h hfree hc hs hmentions hrep he' hknown hinv hobs (hend e'.world)
  rw [Stage.run_eq hne]
  by_cases hderived : ∃ p key value, s.supply = .facts p true key value
  · -- the facts are computed when the block is first run, and are there from then on
    obtain ⟨p, keyMatch, value, hsupply⟩ := hderived
    have hbodied : c.bodied p := hs.bodied (hc ▸ h.coherent) hsupply
    obtain ⟨code, hcode⟩ : ∃ code, (s.code c.vars.length).1 ++ rest =
        .derive p c.vars.length :: code := by
      rw [Stage.code, hsupply]
      exact ⟨_, rfl⟩
    have hknown : s.supply.known meant = meant p := by
      rw [hsupply]
      rfl
    rw [hknown]
    have hrun : Tracks r (fun sink kept => inv sink ∧ obs sink = gather [] (kept.map key))
        (fun sink => inv sink ∧ sink.truncated = true)
        (derive p >>= fun _ => runBlock r derive limit ((s.code c.vars.length).1 ++ rest) frames)
        (meant p >>= fun known => s.settled r known envs) e := by
      refine (hserves p hbodied e he).andThen fun ids ids' e' hrun he' heq => ?_
      subst heq
      have hmemo' := hmemo.kept p e ids e' hrun
      refine hsettled he' ?_
      rintro p' key' value' hsupply'
      rw [hsupply] at hsupply'
      cases hsupply'
      refine ⟨hmemo', fun e'' he'' => hmemo.reused p e'' ids ?_⟩
      have hderived' := congrArg World.derived he''
      exact (congrArg (·.get? p) hderived').trans hmemo'
    refine hrun.of_run ?_ rfl
    rw [hcode]
    exact runBlock_derive hmemo (hrep.ne_nil hne) e
  · have hknown : s.supply.known meant = pure [] := by
      cases hsupply : s.supply with
      | facts p derived keyMatch value =>
          cases derived with
          | true => exact absurd ⟨p, keyMatch, value, hsupply⟩ hderived
          | false => rfl
      | _ => rfl
    rw [hknown, pure_bind]
    exact hsettled he fun p keyMatch value hsupply => absurd ⟨p, keyMatch, value, hsupply⟩ hderived

end Block

/-! ## Bodies -/

section Bodies

variable [LawfulFactStore σ] {met : Content → Prop} {log : List Fact} {named : FactId → Prop}
variable {derive : Predicate → Run (List FactId)} {meant : Predicate → Course (List FactId)}
variable {o first : Outcome} {limit : Option Nat}

omit [LawfulFactStore σ] in
theorem runBlocks_cons {block : List Instr} {blocks : List (List Instr)} (hne : blocks ≠ []) :
    runBlocks r derive limit (block :: blocks) frames =
      runBlock r derive none block frames >>= fun sink =>
        runBlocks r derive limit blocks sink.frames := by
  obtain ⟨block', blocks, rfl⟩ := List.exists_cons_of_ne_nil hne
  rw [runBlocks]
  exact fun heq => nomatch heq

/-- What is gathered is all there is, unless the run was cut off. -/
def Sink.Gives (o : Outcome) (limit : Option Nat) (s : Sink) (values : List Value) : Prop :=
  s.Yielded o limit ∧ s.values = gather [] values

/-- A run that was cut off by its limit. -/
def Sink.CutOff (o : Outcome) (limit : Option Nat) (s : Sink) : Prop :=
  s.Yielded o limit ∧ s.truncated = true

/-- The blocks of stages track the stages. -/
theorem tracks_blocks (h : r.Over met log) (hfree : Collisionless met) (hc : c.schema = r.target)
    (hmemo : Memoizes derive) (hserves : ∀ p, c.bodied p → Serves r derive meant p)
    (hderivable : ∀ p, c.bodied p → Derivable r (r.Excuse named) meant p) {before ss : List Stage}
    (hss : Stage.TypedAll c first ss o k k') (hnamed : ∀ s ∈ ss, s.Names named)
    (hbound : Bound k before) (hk : k' ≤ c.vars.length)
    (hrep : Represents c k (liveBetween c.vars.length before ss) frames envs) {e : Evaluation}
    (he : e.world.Good r) :
    Tracks r (Sink.Gives o limit) (Sink.CutOff o limit)
      (runBlocks r derive limit (blocksOf c.vars.length before ss).1 frames)
      (Stage.runAll r meant ss envs) e := by
  induction ss generalizing first k before frames envs e with
  | nil =>
      rw [blocksOf, runBlocks, Stage.runAll]
      exact .done he ⟨.empty, rfl⟩
  | cons s rest ih =>
      have hn : k ≤ c.vars.length := Nat.le_trans hss.le hk
      obtain ⟨o', j, hs, hrest⟩ := hss
      have hmentions : ∀ v ∈ s.mentions, Needed c.vars.length k before (s :: rest) v := fun v hv =>
        needed_of_mentioned hbound hn (List.mem_cons_self ..) hv
      cases rest with
      | nil =>
          obtain ⟨rfl, rfl⟩ := hrest
          rw [blocksOf, runBlocks, Stage.runAll]
          refine (tracks_block h hfree hc hs hmentions hrep hmemo hserves he .empty rfl
            fun _ _ _ hf => gathers_emit hf).mapCourse fun sink kept hsink => hsink
      | cons s' rest =>
          rw [blocksOf_cons, runBlocks_cons blocksOf_ne_nil, Stage.runAll]
          · have hlive : ∀ v ∈ liveBetween c.vars.length (before ++ [s]) (s' :: rest),
                v < c.vars.length ∧ Needed c.vars.length k before (s :: s' :: rest) v := fun v hv =>
              ⟨(mem_liveBetween.mp hv).1, Needed.before hs (.inr hv)⟩
            have hblock := tracks_block h hfree hc hs hmentions hrep hmemo hserves he .empty rfl
              fun w _ _ hf => gathers_barrier (w := w) hlive
                (fun v hv => .inl (Nat.le_trans hs.le hv)) hf
            have hyields := Stage.run_yields h hc hderivable hs (hnamed s (List.mem_cons_self ..))
              hrep.typed he
            have huncut := hblock.uncut fun sink hcut => by
              rw [hcut.1.room] at hcut
              cases hcut.2
            refine huncut.andThen_yields hyields fun sink kept e' he' hsink hkept => ?_
            obtain ⟨hhanded, hframes⟩ := hsink
            refine ih hrest (fun s'' hs'' => hnamed s'' (List.mem_cons_of_mem s hs''))
              (hbound.snoc hs) ⟨?_, hhanded.unbound, ?_⟩ he'
            · rw [hframes, List.map_map]
              rfl
            · exact List.forall_mem_map.mpr fun res hres => (hkept res hres).2
          · intro heq
            cases heq

end Bodies

end Factbase
