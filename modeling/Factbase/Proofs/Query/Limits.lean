import Factbase.Proofs.Query.Draws
import Factbase.Proofs.Query.Execution

/-!
# A limit takes a prefix

A run with a limit is compared with the run without one, which is assumed
to succeed. As long as the limit is not exceeded the two are in the same
state (`InStep`). Once it is, the limited run is over while the other one
goes on; what has to be seen is that it changes nothing that the results
depend on, which are the values so far and the derived facts.

The values only grow. The derived facts are as they will be, because of
the shape of blocks: a value is yielded at the end of a block, and on the
way there every derived predicate of the block has been computed, so that
from then on it is looked up (`Evaluation.Leads`). Blocks before the last
have no limit.
-/

namespace Factbase

variable {σ : Type} [FactStore σ] {r : Reading σ} {derive : Predicate → Run (List FactId)}

/-! ## Evaluations that come later -/

namespace Evaluation

/-- The facts of some derived predicates have been computed. -/
def Knows (e : Evaluation) (ps : List Predicate) : Prop :=
  ∀ p ∈ ps, ∃ ids, e.derived.get? p = some ids

/-- Facts that were computed stay, and counts do not go down. -/
structure Before (e e' : Evaluation) : Prop where
  known : ∀ p ids, e.derived.get? p = some ids → e'.derived.get? p = some ids
  searched : e.searched ≤ e'.searched

/-- The derived facts stay altogether, unless some of `ps` had not been computed. -/
structure Leads (ps : List Predicate) (e e' : Evaluation) : Prop extends Before e e' where
  settled : e.Knows ps → e'.world = e.world

variable {e e₁ e' : Evaluation} {ps qs : List Predicate}

theorem Knows.before (h : e.Knows ps) (hbefore : e.Before e') : e'.Knows ps := by
  intro p hp
  obtain ⟨ids, hids⟩ := h p hp
  exact ⟨ids, hbefore.known p ids hids⟩

theorem Knows.world (h : e.Knows ps) (hworld : e'.world = e.world) : e'.Knows ps := by
  have hderived : e'.derived = e.derived := congrArg World.derived hworld
  rwa [Knows, hderived]

theorem Before.refl (e : Evaluation) : e.Before e := ⟨fun _ _ h => h, Nat.le_refl _⟩

theorem Before.trans (h : e.Before e₁) (h' : e₁.Before e') : e.Before e' :=
  ⟨fun p ids hids => h'.known p ids (h.known p ids hids), Nat.le_trans h.searched h'.searched⟩

theorem Leads.refl (ps : List Predicate) (e : Evaluation) : e.Leads ps e := ⟨.refl e, fun _ => rfl⟩

theorem Leads.trans (h : e.Leads ps e₁) (h' : e₁.Leads ps e') : e.Leads ps e' where
  toBefore := h.toBefore.trans h'.toBefore
  settled hps := (h'.settled (hps.before h.toBefore)).trans (h.settled hps)

theorem Leads.mono (h : e.Leads ps e') (hsub : ps ⊆ qs) : e.Leads qs e' :=
  ⟨h.toBefore, fun hqs => h.settled fun p hp => hqs p (hsub hp)⟩

/-- Where nothing but counts changes. -/
theorem Leads.of_world (hworld : e'.world = e.world) (hsearched : e.searched ≤ e'.searched) :
    e.Leads ps e' := by
  have hderived : e'.derived = e.derived := congrArg World.derived hworld
  exact ⟨⟨fun p ids hids => hderived ▸ hids, hsearched⟩, fun _ => hworld⟩

end Evaluation

/-! ## Sinks with and without a limit -/

namespace Sink

/-- A sink without a limit, so that it is never full. -/
structure Free (s : Sink) : Prop where
  limit : s.limit = none
  going : s.truncated = false

/-- The same sink with a limit. -/
def limitedTo (s : Sink) (n : Nat) : Sink := { s with limit := some n }

theorem free_empty : (empty none).Free := ⟨rfl, rfl⟩

theorem handOver_limitedTo (s : Sink) (n : Nat) (keep : List Nat) (regs : Registers) :
    (s.limitedTo n).handOver keep regs = (s.handOver keep regs).limitedTo n := by
  by_cases hseen : keep.map regs ∈ s.seen <;> simp [handOver, limitedTo, hseen]

/-- Handing over does not touch what is about values. -/
theorem handOver_keeps (s : Sink) (keep : List Nat) (regs : Registers) :
    (s.handOver keep regs).values = s.values ∧ (s.handOver keep regs).limit = s.limit ∧
      (s.handOver keep regs).truncated = s.truncated := by
  simp only [handOver]
  split <;> exact ⟨rfl, rfl, rfl⟩

variable {s : Sink} {n : Nat} {v : Value}

theorem yield_seen (h : v ∈ s.values) : s.yield v = s := by
  simp [yield, h]

theorem yield_free (hs : s.Free) (h : v ∉ s.values) :
    s.yield v = { s with values := s.values ++ [v] } := by
  simp [yield, h, hs.limit]

theorem yield_room (h : v ∉ s.values) (hroom : s.values.length < n) :
    (s.limitedTo n).yield v = limitedTo { s with values := s.values ++ [v] } n := by
  simp [yield, limitedTo, h, Nat.not_le.mpr hroom]

theorem yield_full (h : v ∉ s.values) (hfull : n ≤ s.values.length) :
    (s.limitedTo n).yield v = { s.limitedTo n with truncated := true } := by
  simp [yield, limitedTo, h, hfull]

end Sink

/-- What the run without a limit does from one sink and evaluation to the next. -/
structure Proceeds (ps : List Predicate) (t : Sink) (e : Evaluation) (t' : Sink) (e' : Evaluation) :
    Prop where
  leads : e.Leads ps e'
  free : t'.Free
  values : t.values <+: t'.values

theorem Proceeds.trans {ps : List Predicate} {t t₁ t' : Sink} {e e₁ e' : Evaluation}
    (h : Proceeds ps t e t₁ e₁) (h' : Proceeds ps t₁ e₁ t' e') : Proceeds ps t e t' e' :=
  ⟨h.leads.trans h'.leads, h'.free, h.values.trans h'.values⟩

/-- The run with the limit `n` is over, with `s` and `e`; the other run is at `t` and `e'`, and
no derived predicate of `ps` is left to be computed. -/
structure Stopped (n : Nat) (ps : List Predicate) (s : Sink) (e : Evaluation) (t : Sink)
    (e' : Evaluation) : Prop where
  truncated : s.truncated = true
  values : s.values = t.values.take n
  more : n < t.values.length
  known : e.Knows ps
  world : e'.world = e.world
  searched : e.searched ≤ e'.searched

/-- The run with the limit `n` and the other one are at the same point, or the first is over. -/
def InStep (n : Nat) (ps : List Predicate) (s : Sink) (e : Evaluation) (t : Sink) (e' : Evaluation) :
    Prop :=
  s = t.limitedTo n ∧ e = e' ∧ t.values.length ≤ n ∨ Stopped n ps s e t e'

/-- When the limited run is over, the other one may go on. -/
theorem Stopped.proceeds {n : Nat} {ps : List Predicate} {s t t' : Sink} {e e₁ e' : Evaluation}
    (h : Stopped n ps s e t e₁) (ht : Proceeds ps t e₁ t' e') : Stopped n ps s e t' e' where
  truncated := h.truncated
  values := by
    obtain ⟨more, hmore⟩ := ht.values
    rw [h.values, ← hmore, List.take_append_of_le_length (Nat.le_of_lt h.more)]
  more := Nat.lt_of_lt_of_le h.more ht.values.length_le
  known := h.known
  world := (ht.leads.settled (h.known.world h.world)).trans h.world
  searched := Nat.le_trans h.searched ht.leads.searched

/-- What is shown of the parts of a program: from a sink without a limit, they lead to another
one, and with the limit `n` they agree with that. -/
def Cuttable (n : Nat) (ps : List Predicate) (m : Sink → Run Sink) : Prop :=
  ∀ t e t' e', t.Free → (m t).run e = .ok (t', e') →
    Proceeds ps t e t' e' ∧ (t.values.length ≤ n →
      ∃ s e₁, (m (t.limitedTo n)).run e = .ok (s, e₁) ∧ InStep n ps s e₁ t' e')

namespace Cuttable

variable {n : Nat} {ps qs : List Predicate} {α β : Type}

theorem done : Cuttable n ps fun sink => pure sink := by
  intro t e t' e' ht h
  cases h
  exact ⟨⟨.refl ps e, ht, List.prefix_rfl⟩, fun hn => ⟨_, _, rfl, .inl ⟨rfl, rfl, hn⟩⟩⟩

/-- Registers are handed over alike; they do not count against the limit. -/
theorem handOver (keep : List Nat) (regs : Registers) :
    Cuttable n ps fun sink => pure (sink.handOver keep regs) := by
  intro t e t' e' ht h
  cases h
  obtain ⟨hvalues, hlimit, htruncated⟩ := t.handOver_keeps keep regs
  refine ⟨⟨.refl ps e, ⟨hlimit.trans ht.limit, htruncated.trans ht.going⟩, ?_⟩, fun hn => ?_⟩
  · exact hvalues ▸ List.prefix_rfl
  · exact ⟨_, _, rfl, .inl ⟨t.handOver_limitedTo n keep regs, rfl, by rwa [hvalues]⟩⟩

/-- A value is yielded alike, unless it is one more than the limit allows. -/
theorem yield (v : Value) : Cuttable n [] fun sink => pure (sink.yield v) := by
  intro t e t' e' ht h
  cases h
  by_cases hseen : v ∈ t.values
  · rw [Sink.yield_seen hseen]
    exact ⟨⟨.refl [] e, ht, List.prefix_rfl⟩,
      fun hn => ⟨_, _, rfl, .inl ⟨Sink.yield_seen (s := t.limitedTo n) hseen, rfl, hn⟩⟩⟩
  · rw [Sink.yield_free ht hseen]
    refine ⟨⟨.refl [] e, ⟨ht.limit, ht.going⟩, List.prefix_append _ _⟩, fun hn => ?_⟩
    rcases Nat.lt_or_ge t.values.length n with hroom | hfull
    · refine ⟨_, _, rfl, .inl ⟨Sink.yield_room hseen hroom, rfl, ?_⟩⟩
      rw [List.length_append]
      exact hroom
    · have hlen : t.values.length = n := Nat.le_antisymm hn hfull
      refine ⟨_, _, rfl, .inr ?_⟩
      rw [Sink.yield_full hseen hfull]
      exact ⟨rfl, by simp [Sink.limitedTo, ← hlen], by simp [hlen], by simp [Evaluation.Knows], rfl,
        Nat.le_refl _⟩

/-- A step that changes nothing but counts, and what follows it. -/
theorem into {step : Step α} {next : α → Sink → Run Sink} (hstep : step.Counts)
    (hnext : ∀ a, Cuttable n ps (next a)) : Cuttable n ps (step.into next) := by
  intro t e t' e' ht h
  obtain ⟨found, e₁, hfound, h⟩ := Outcome.stateT_bind_ok_iff.mp h
  obtain ⟨hworld, hsearched⟩ := hstep e found e₁ hfound
  have hhere : Proceeds ps t e t e₁ := ⟨.of_world hworld hsearched, ht, List.prefix_rfl⟩
  cases found with
  | none =>
      cases h
      exact ⟨hhere, fun hn => ⟨_, _, Outcome.stateT_bind_ok_iff.mpr ⟨none, _, hfound, rfl⟩,
        .inl ⟨rfl, rfl, hn⟩⟩⟩
  | some a =>
      obtain ⟨hproceeds, hlimited⟩ := hnext a t e₁ t' e' ht h
      refine ⟨hhere.trans hproceeds, fun hn => ?_⟩
      obtain ⟨s, e₂, hs, hinstep⟩ := hlimited hn
      exact ⟨s, e₂, Outcome.stateT_bind_ok_iff.mpr ⟨some a, e₁, hfound, hs⟩, hinstep⟩

/-- When the limited run is over after an item, the other one goes on with the rest. -/
theorem visitAll {step : α → Sink → Run Sink} {xs : List α} (h : ∀ x ∈ xs, Cuttable n ps (step x)) :
    Cuttable n ps (Factbase.visitAll step xs) := by
  induction xs with
  | nil => exact done
  | cons x xs ih =>
      obtain ⟨hx, hxs⟩ := List.forall_mem_cons.mp h
      intro t e t' e' ht hrun
      rw [run_visitAll_cons] at hrun
      obtain ⟨⟨t₁, e₁⟩, hstep, hrun⟩ := Outcome.bind_ok_iff.mp hrun
      obtain ⟨hproceeds, hlimited⟩ := hx t e t₁ e₁ ht hstep
      simp only [hproceeds.free.going, Bool.false_eq_true, if_false] at hrun
      obtain ⟨hproceeds', hlimited'⟩ := ih hxs t₁ e₁ t' e' hproceeds.free hrun
      refine ⟨hproceeds.trans hproceeds', fun hn => ?_⟩
      obtain ⟨s, e₂, hs, ⟨rfl, rfl, hn'⟩ | hstopped⟩ := hlimited hn
      · obtain ⟨s', e₃, hs', hinstep⟩ := hlimited' hn'
        refine ⟨s', e₃, ?_, hinstep⟩
        rw [run_visitAll_cons, hs]
        refine Eq.trans (if_neg ?_) hs'
        exact Bool.eq_false_iff.mp hproceeds.free.going
      · refine ⟨s, e₂, ?_, .inr (hstopped.proceeds hproceeds')⟩
        rw [run_visitAll_cons, hs]
        exact if_pos hstopped.truncated

/-- A run that computes derived predicates, and what follows it. -/
theorem after {m : Run β} {next : β → Sink → Run Sink}
    (hm : ∀ e b e', m.run e = .ok (b, e') →
      e.Leads qs e' ∧ e'.Knows qs ∧ Cuttable n ps (next b)) :
    Cuttable n (qs ++ ps) fun sink => m >>= fun b => next b sink := by
  intro t e t' e' ht h
  obtain ⟨b, e₁, hb, h⟩ := Outcome.stateT_bind_ok_iff.mp h
  obtain ⟨hleads, hknows, hnext⟩ := hm e b e₁ hb
  obtain ⟨hproceeds, hlimited⟩ := hnext t e₁ t' e' ht h
  refine ⟨⟨(hleads.mono (List.subset_append_left ..)).trans
    (hproceeds.leads.mono (List.subset_append_right ..)), hproceeds.free, hproceeds.values⟩,
    fun hn => ?_⟩
  obtain ⟨s, e₂, hs, hinstep⟩ := hlimited hn
  refine ⟨s, e₂, Outcome.stateT_bind_ok_iff.mpr ⟨b, e₁, hb, hs⟩, hinstep.imp_right fun hstopped => ?_⟩
  -- what was computed before the limited run was over is still known then
  have hqs : e₂.Knows qs := (hknows.before hproceeds.leads.toBefore).world hstopped.world.symm
  exact { hstopped with known := fun p hp => (List.mem_append.mp hp).elim (hqs p) (hstopped.known p) }

end Cuttable

/-! ## Blocks -/

/-- The derived predicates that have been computed when a block ends. -/
def demands : List Instr → List Predicate
  | [] => []
  | i :: rest => if i.isEnd then [] else i.demands ++ demands rest

/-- What a way of computing derived predicates must keep to. -/
structure Derives (derive : Predicate → Run (List FactId)) : Prop extends Memoizes derive where
  before : ∀ p e ids e', (derive p).run e = .ok (ids, e') → e.Before e'

/-- Drawing computes what an instruction demands, once. -/
theorem Derives.draws (hderive : Derives derive) {i : Instr} {f : Frame} {e e' : Evaluation}
    {steps : List (Step Frame)} (h : (i.draws r derive f).run e = .ok (steps, e')) :
    e.Leads i.demands e' ∧ e'.Knows i.demands := by
  obtain ⟨-, ⟨hnone, rfl⟩ | ⟨p, dst, ids, rfl, hids⟩⟩ := Instr.draws_cases h
  · rw [hnone]
    exact ⟨.refl _ _, fun p hp => by cases hp⟩
  · refine ⟨⟨hderive.before p e ids e' hids, fun hknows => ?_⟩, ?_⟩
    · obtain ⟨ids', hids'⟩ := hknows p (List.mem_singleton_self p)
      cases (hderive.reused p e ids' hids').symm.trans hids
      rfl
    · exact List.forall_mem_singleton.mpr ⟨ids, hderive.kept p e ids e' hids⟩

variable {n : Nat}

/-- A block can be cut off. -/
theorem cuttable_exec (hderive : Derives derive) (code : List Instr) (f : Frame) :
    Cuttable n (demands code) (exec r derive code f) := by
  induction code generalizing f with
  | nil =>
      have hexec : exec r derive [] f = fun sink => pure sink := by
        funext sink
        rw [exec]
      rw [hexec]
      exact .done
  | cons i rest ih =>
      cases hi : i.isEnd with
      | false =>
          have hexec : exec r derive (i :: rest) f = fun sink =>
              i.draws r derive f >>= fun steps =>
                visitAll (fun step => step.into (exec r derive rest)) steps sink :=
            funext (exec_draws hi rest f)
          have hdemands : demands (i :: rest) = i.demands ++ demands rest := by
            rw [demands, hi]
            rfl
          rw [hexec, hdemands]
          refine .after fun e steps e' hsteps => ?_
          obtain ⟨hleads, hknows⟩ := hderive.draws hsteps
          refine ⟨hleads, hknows, .visitAll fun step hstep => ?_⟩
          exact .into ((Instr.draws_cases hsteps).1 step hstep) ih
      | true =>
          cases i with
          | barrier keep =>
              rw [exec_barrier]
              exact .handOver keep f.regs
          | emit src =>
              rw [exec_emit]
              exact .yield (f.regs src)
          | _ => cases hi

/-- A run with a limit, and one without that succeeds: the same derived facts, a prefix of the
values, and no more that is looked at. -/
structure Prefixed (n : Nat) (s : Sink) (e : Evaluation) (t : Sink) (e' : Evaluation) : Prop where
  values : s.values = t.values.take n
  truncated : s.truncated = true ↔ n < t.values.length
  overlay : e.overlay = e'.overlay
  searched : e.searched ≤ e'.searched

theorem InStep.prefixed {ps : List Predicate} {s t : Sink} {e e' : Evaluation} (ht : t.Free)
    (h : InStep n ps s e t e') : Prefixed n s e t e' := by
  rcases h with ⟨rfl, rfl, hn⟩ | hstopped
  · refine ⟨(List.take_of_length_le hn).symm, ?_, rfl, Nat.le_refl _⟩
    rw [show (t.limitedTo n).truncated = false from ht.going]
    simpa using hn
  · exact ⟨hstopped.values, iff_of_true hstopped.truncated hstopped.more,
      (congrArg World.overlay hstopped.world).symm, hstopped.searched⟩

/-- The blocks of a code can be cut off: the limit is for the last of them. -/
theorem runBlocks_prefixed (hderive : Derives derive) {blocks : List (List Instr)}
    {frames : List Registers} {e e' : Evaluation} {t : Sink}
    (h : (runBlocks r derive none blocks frames).run e = .ok (t, e')) :
    e.Before e' ∧ ∃ s e₁, (runBlocks r derive (some n) blocks frames).run e = .ok (s, e₁) ∧
      Prefixed n s e₁ t e' := by
  induction blocks generalizing frames e with
  | nil =>
      rw [runBlocks] at h ⊢
      cases h
      exact ⟨.refl _, _, _, rfl, by simp [Sink.empty], by simp [Sink.empty], rfl, Nat.le_refl _⟩
  | cons block blocks ih =>
      have hblock (e : Evaluation) (t : Sink) (e' : Evaluation)
          (h : (runBlock r derive none block frames).run e = .ok (t, e')) :=
        Cuttable.visitAll (n := n) (fun regs _ => cuttable_exec hderive block (.ofRegisters regs))
          (.empty none) e t e' Sink.free_empty h
      cases blocks with
      | nil =>
          rw [runBlocks] at h ⊢
          obtain ⟨hproceeds, hlimited⟩ := hblock e t e' h
          obtain ⟨s, e₁, hs, hinstep⟩ := hlimited (Nat.zero_le n)
          exact ⟨hproceeds.leads.toBefore, s, e₁, hs, hinstep.prefixed hproceeds.free⟩
      | cons next blocks =>
          have hne : next :: blocks ≠ [] := List.cons_ne_nil _ _
          rw [runBlocks_cons hne] at h ⊢
          obtain ⟨first, e₁, hfirst, h⟩ := Outcome.stateT_bind_ok_iff.mp h
          obtain ⟨hbefore, s, e₂, hs, hprefixed⟩ := ih h
          obtain ⟨hproceeds, -⟩ := hblock e first e₁ hfirst
          exact ⟨hproceeds.leads.toBefore.trans hbefore, s, e₂,
            Outcome.stateT_bind_ok_iff.mpr ⟨first, e₁, hfirst, hs⟩, hprefixed⟩

/-! ## Programs -/

/-- Making up facts computes no derived predicate and looks at no fact. -/
theorem addAllDerived_counts {p : Predicate} {keys : List Value} {e e' : Evaluation}
    {ids : List FactId} (h : (keys.mapM (addDerived p)).run e = .ok (ids, e')) :
    e'.derived = e.derived ∧ e'.searched = e.searched := by
  have hkeeps : Outcome.Preserves (fun e' : Evaluation =>
      e'.derived = e.derived ∧ e'.searched = e.searched) (keys.mapM (addDerived p)) := by
    refine .mapM (fun key e₁ id e₂ he₁ hadd => ?_) keys
    cases hadd
    exact he₁
  exact hkeeps e ids e' ⟨rfl, rfl⟩ h

/-- Derived predicates are computed once, and those that were computed before stay. -/
theorem derives_deriveFacts (r : Reading σ) (codes : SortedMap Predicate Code) (fuel : Nat) :
    Derives (deriveFacts r codes fuel) := by
  induction fuel with
  | zero =>
      refine ⟨memoizes_deriveFacts, fun p e ids e' h => ?_⟩
      obtain ⟨-, rfl⟩ | ⟨-, _, _, _, _, _, hfuel, -⟩ := deriveFacts_cases h
      · exact .refl _
      · cases hfuel
  | succ fuel ih =>
      refine ⟨memoizes_deriveFacts, fun p e ids e' h => ?_⟩
      obtain ⟨-, rfl⟩ | ⟨hnew, _, code, sink, e₁, e₂, hfuel, hrun, hids, rfl⟩ := deriveFacts_cases h
      · exact .refl _
      · cases hfuel
        obtain ⟨hbefore, -⟩ := runBlocks_prefixed (n := 0) ih hrun
        obtain ⟨hderived, hsearched⟩ := addAllDerived_counts hids
        refine ⟨fun q ids' hq => ?_, hsearched ▸ hbefore.searched⟩
        have hne : q ≠ p := by
          rintro rfl
          cases hnew.symm.trans hq
        show (e₂.derived.insert p ids).get? q = some ids'
        rw [SortedMap.get?_insert_of_ne hne, hderived]
        exact hbefore.known q ids' hq

/-- A limit on a program takes a prefix of its values. -/
theorem Program.run_prefixed {p : Program} {e e' : Evaluation} {t : Sink}
    (h : (p.run r none).run e = .ok (t, e')) (n : Nat) :
    ∃ s e₁, (p.run r (some n)).run e = .ok (s, e₁) ∧ Prefixed n s e₁ t e' :=
  (runBlocks_prefixed (derives_deriveFacts r p.derived p.derived.size) h).2

/-- A limit on a query takes a prefix of its results, and they are cut off just when there are
more. What is looked at is no more than without the limit. -/
theorem CompiledQuery.execute_limit (q : CompiledQuery) (store : σ) (stored : Schema)
    (o : QueryOptions) {all : QueryResults}
    (h : q.execute store stored { o with limit := none } = .ok all) (n : Nat) :
    ∃ some', q.execute store stored { o with limit := some n } = .ok some' ∧
      some'.bindings = all.bindings.take n ∧
      (some'.truncated = true ↔ n < all.bindings.length) ∧ some'.searched ≤ all.searched := by
  obtain ⟨_, hprepared, h⟩ := Outcome.bind_ok_iff.mp h
  obtain ⟨⟨t, e'⟩, hrun, h⟩ := Outcome.bind_ok_iff.mp h
  obtain ⟨bindings, hbindings, h⟩ := Outcome.bind_ok_iff.mp h
  cases h
  obtain ⟨s, e₁, hlimited, hprefixed⟩ := Program.run_prefixed hrun n
  have hall := Outcome.mapM_ok_iff.mp hbindings
  have hsome : s.values.mapM (q.binding ⟨store, stored, q.schema, q.mode⟩ e₁.overlay o.expand) =
      .ok (bindings.take n) := by
    rw [hprefixed.values, hprefixed.overlay]
    exact Outcome.mapM_ok_iff.mpr (List.forall₂_take n hall)
  refine ⟨⟨bindings.take n, s.truncated, e₁.searched, e₁.profile⟩, ?_, rfl, ?_, hprefixed.searched⟩
  · exact Outcome.bind_ok_iff.mpr ⟨_, hprepared, Outcome.bind_ok_iff.mpr ⟨_, hlimited,
      Outcome.bind_ok_iff.mpr ⟨_, hsome, rfl⟩⟩⟩
  · rw [hprefixed.truncated, hall.length_eq]

/-! ## A station with two readings -/

/-- Stations and what was read there, and the names of stations, which are derived. -/
def weatherDecl : SchemaDecl where
  name := "weather"
  version := 1
  inherits := []
  imports := []
  items :=
    [.predicate "Station" .string none none, .predicate "Reading" (.named "Station") (some .nat) none,
      .predicate "Name" .string none
        (some (.var "S", ⟨[⟨none, .predicate "Station" none (some (.var "S")) none⟩]⟩))]

def weatherSchema : Schema := (Schema.builtin.register weatherDecl).toOption.getD .builtin

/-- Two readings with one key. -/
def weatherFacts : List StoreOp :=
  [.insert ⟨"weather.Station", 1⟩ (.string "Oslo") .unit,
    .insert ⟨"weather.Reading", 1⟩ (.fact ⟨1024⟩) (.nat 3),
    .insert ⟨"weather.Reading", 1⟩ (.fact ⟨1024⟩) (.nat 5), .setState .complete]

def weatherStore : MemoryStore := ((.new : StoreSession MemoryStore).run weatherFacts).store

/-- For every name, the readings that share their key with one of them. -/
def readingsQuery : CompiledQuery :=
  (CompiledQuery.ofText "weather.Name N; $1025" weatherSchema .current).toOption.getD default

theorem CompiledQuery.execute_limit_readings :
    ∃ one, readingsQuery.execute weatherStore weatherSchema
        { (default : QueryOptions) with limit := some 1 } = .ok one ∧
      one.bindings.length = 1 ∧ one.truncated = true := by
  have hrun : (readingsQuery.execute weatherStore weatherSchema
      { (default : QueryOptions) with limit := none }).toOption.any (·.bindings.length = 2) = true := by
    decide +kernel
  cases h : readingsQuery.execute weatherStore weatherSchema
      { (default : QueryOptions) with limit := none } with
  | error e =>
      rw [h] at hrun
      cases hrun
  | ok all =>
      rw [h] at hrun
      have hlen : all.bindings.length = 2 := of_decide_eq_true hrun
      obtain ⟨one, hone, hbindings, htruncated, -⟩ :=
        execute_limit readingsQuery weatherStore weatherSchema default h 1
      refine ⟨one, hone, ?_, htruncated.mpr (by omega)⟩
      rw [hbindings, List.length_take, hlen]
      rfl

end Factbase
