import Factbase.Proofs.Query.Lookups
import Factbase.Proofs.Query.Nesting

/-!
# Computing derived facts

The code of a body computes the facts of the derived predicates that the
stages of the body draw from (`Body.demands_compile`). All of these have
bodies, and bodies use one another in no circle. So while the facts of a
derived predicate are computed, those of the same predicate are not asked
for again, and the depth that a run is given is enough: a run that watches
for both is the same run (`deriveWatched_eq`).

Where typing goes on without end, the keys of some predicates refer to one
another in a circle, and references cannot be followed to something else.
-/

namespace Factbase

open Bodies

variable {σ : Type} [FactStore σ] {r : Reading σ}

/-! ## What code demands -/

/-- The derived predicates that a supply draws facts from. -/
def Supply.computes : Supply → List Predicate
  | .facts p true _ _ => [p]
  | _ => []

/-- The derived predicates that the stages of a body draw facts from. -/
def Body.computes (b : Body) : List Predicate := b.stages.flatMap (·.supply.computes)

theorem Supply.computes_subset_uses (s : Supply) : s.computes ⊆ s.uses := by
  cases s with
  | facts p derived key value =>
      cases derived with
      | true => exact List.cons_subset_cons p (List.nil_subset _)
      | false => exact List.nil_subset _
  | _ => exact List.nil_subset _

theorem Body.computes_subset_uses (b : Body) : b.computes ⊆ b.uses := by
  intro p hp
  obtain ⟨s, hs, hp⟩ := List.mem_flatMap.mp hp
  exact List.mem_flatMap.mpr ⟨s, hs, List.mem_append_left _ (s.supply.computes_subset_uses hp)⟩

/-- The code demands nothing but some predicates. -/
def DemandsOnly (ps : List Predicate) (code : List Instr) : Prop := ∀ i ∈ code, ∀ p ∈ i.demands, p ∈ ps

namespace DemandsOnly

variable {ps qs : List Predicate} {i : Instr} {code code' : List Instr}

theorem mono (h : DemandsOnly ps code) (hsub : ps ⊆ qs) : DemandsOnly qs code :=
  fun i hi p hp => hsub (h i hi p hp)

theorem nil : DemandsOnly ps [] := fun _ hi => by cases hi

theorem cons (hi : ∀ p ∈ i.demands, p ∈ ps) (h : DemandsOnly ps code) : DemandsOnly ps (i :: code) :=
  List.forall_mem_cons.mpr ⟨hi, h⟩

theorem append (h : DemandsOnly ps code) (h' : DemandsOnly ps code') : DemandsOnly ps (code ++ code') :=
  List.forall_mem_append.mpr ⟨h, h'⟩

theorem straight (h : ∀ i ∈ code, i.isStraight = true) : DemandsOnly ps code := by
  intro i hi p hp
  have hstraight := h i hi
  cases i with
  | derive => cases hstraight
  | _ => cases hp

end DemandsOnly

theorem Supply.demandsOnly_code (s : Supply) (next : Nat) : DemandsOnly s.computes (s.code next).1 := by
  have hsource {i : Instr} (hi : i.demands = []) (ps : List Predicate) : ∀ p ∈ i.demands, p ∈ ps := by
    rw [hi]
    exact fun _ h => by cases h
  cases s with
  | facts p derived key value =>
      cases derived with
      | true => exact .cons (fun _ => id) (.straight (Match.isStraight_codeKey _ _ _))
      | false =>
          rw [Supply.code]
          split
          · split
            · exact .cons (hsource rfl _) (.straight (Match.isStraight_codeValue _ _ _))
            · exact .append (.straight (Expr.isStraight_code _ _))
                (.cons (hsource rfl _) (.straight (Match.isStraight_codeValue _ _ _)))
          · exact .cons (hsource rfl _) (.append (.straight (Match.isStraight_codeKey _ _ _))
              (.straight (Match.isStraight_codeValue _ _ _)))
  | factId id => exact .cons (hsource rfl _) .nil
  | prim f arg => exact .append (.straight (Expr.isStraight_code _ _)) (.cons (hsource rfl _) .nil)
  | expr e => exact .straight (Expr.isStraight_code _ _)

theorem Stage.demandsOnly_code (s : Stage) (next : Nat) : DemandsOnly s.supply.computes (s.code next).1 :=
  (s.supply.demandsOnly_code next).append (.straight (Match.isStraight_code _ _ _))

theorem demandsOnly_blocksOf (n : Nat) (before ss : List Stage) :
    ∀ block ∈ (blocksOf n before ss).1, DemandsOnly (ss.flatMap (·.supply.computes)) block := by
  induction ss generalizing before with
  | nil => exact fun _ h => by cases h
  | cons s ss ih =>
      have hfirst (i : Instr) (hi : i.demands = []) :
          DemandsOnly ((s :: ss).flatMap (·.supply.computes)) ((s.code n).1 ++ [i]) := by
        refine .append ((s.demandsOnly_code n).mono (List.subset_append_left ..)) (.cons ?_ .nil)
        rw [hi]
        exact fun _ h => by cases h
      cases ss with
      | nil => exact List.forall_mem_singleton.mpr (hfirst _ rfl)
      | cons s' ss =>
          refine List.forall_mem_cons.mpr ⟨hfirst _ rfl, fun block hblock => ?_⟩
          exact (ih (before ++ [s]) block hblock).mono (List.subset_append_right ..)

/-- The code of a body computes what its stages draw from, and nothing else. -/
theorem Body.demands_compile (b : Body) : ∀ block ∈ b.compile.blocks, DemandsOnly b.computes block :=
  demandsOnly_blocksOf b.vars.length [] b.stages

/-! ## What bodies draw from -/

/-- The facts that are computed for a body are those of derived predicates. -/
def Body.Derives (s : Schema) (b : Body) : Prop :=
  ∀ p ∈ b.computes, ∃ d, s.get? p = some d ∧ d.isDerived = true

theorem Body.Derives.bodied {s : Schema} {b : Body} {bodies : Bodies} (hb : b.Derives s)
    (hcover : Cover s bodies b.uses) : ∀ p ∈ b.computes, bodies.contains p = true := by
  intro p hp
  obtain ⟨d, hd, hderived⟩ := hb p hp
  exact hcover p (b.computes_subset_uses hp) d hd hderived

namespace TypingContext

variable {c : TypingContext} {t t' : Typing}

theorem Draws.derives (hs : c.schema.Coherent) {source : Source} {s : Supply} {o : Outcome}
    (h : c.Draws source t s o t') :
    ∀ p ∈ s.computes, ∃ d, c.schema.get? p = some d ∧ d.isDerived = true := by
  cases h with
  | @facts _ _ _ _ d _ _ _ _ _ _ hresolve henter hkey hvalue =>
      intro p hp
      cases hderived : d.isDerived with
      | false =>
          rw [hderived] at hp
          cases hp
      | true =>
          rw [hderived] at hp
          obtain rfl := List.mem_singleton.mp hp
          exact ⟨d, resolve_defines hs hresolve, hderived⟩
  | _ => exact List.forall_mem_nil _

theorem stages_derives (hs : c.schema.Coherent) {more : Bool} {first o : Outcome} {ss : List Statement}
    {stages : List Stage} (h : c.stages more first ss t = .ok ((stages, o), t')) :
    ∀ s ∈ stages, ∀ p ∈ s.supply.computes, ∃ d, c.schema.get? p = some d ∧ d.isDerived = true := by
  induction ss generalizing first stages t with
  | nil =>
      cases h
      exact fun _ h => by cases h
  | cons s ss ih =>
      obtain ⟨supply, o₁, t₁, bind, t₂, rest, hsupply, hbind, hstages, rfl⟩ := stages_cons h
      exact List.forall_mem_cons.mpr ⟨(supply_draws hsupply).derives hs, ih hstages⟩

/-- The facts that a typed body asks to be computed are those of derived predicates. -/
theorem body_derives (hs : c.schema.Coherent) {q : Query} {head : Option (Pattern × Ty)}
    {bodies bodies' : Bodies} {b : Body} (h : c.body q head bodies = .ok (b, bodies')) :
    b.Derives c.schema := by
  obtain ⟨stages, last, o, t, hstages, rfl, hb, hlast⟩ := body_stages h
  intro p hp
  rw [Body.computes, hb] at hp
  obtain ⟨s, hmem, hp⟩ := List.mem_flatMap.mp hp
  rcases List.mem_append.mp hmem with hmem | hmem
  · exact stages_derives hs hstages s hmem p hp
  · have hused := List.mem_append_left s.bind.touches (s.supply.computes_subset_uses hp)
    rw [show s.supply.uses ++ s.bind.touches = [] from hlast s hmem] at hused
    cases hused

end TypingContext

theorem Bodies.Proper.derives {s : Schema} (hs : s.Coherent) {bodies : Bodies} (h : Proper s bodies)
    {p : Predicate} {b : Body} (hb : bodies.get? p = some b) : b.Derives s := by
  obtain ⟨d, -, derivation, -, hbody⟩ := h p b hb
  exact TypingContext.body_derives (c := ⟨s, _, _⟩) hs hbody

/-! ## A run that is watched -/

/-- The facts of a derived predicate, as `deriveFacts` has them, but where one of these would
happen the run is refused: facts are asked for of a predicate whose facts are being computed (the
`entered` ones), or of one that has no body, or deeper than `fuel`; or facts that have been computed
are known already. -/
def deriveWatched (refuse : Predicate → Error) (r : Reading σ) (bodies : SortedMap Predicate Code)
    (fuel : Nat) (entered : List Predicate) (p : Predicate) : Run (List FactId) := do
  match (← get).derived.get? p with
  | some ids => return ids
  | none =>
    if p ∈ entered then throw (refuse p)
    if FactStore.state r.store ≠ .complete then throw (.incomplete (.derivation p))
    match bodies.get? p, fuel with
    | none, _ | _, 0 => throw (refuse p)
    | some code, fuel + 1 =>
      let sink ← code.run r (deriveWatched refuse r bodies fuel (p :: entered)) none
      if (← get).derived.contains p then throw (refuse p)
      let ids ← sink.values.mapM (addDerived p)
      modify fun e => { e with derived := e.derived.insert p ids }
      return ids

/-- Run a program and watch how derived facts are computed. -/
def Program.runWatched (refuse : Predicate → Error) (p : Program) (r : Reading σ)
    (limit : Option Nat) : Run Sink :=
  p.main.run r (deriveWatched refuse r p.derived p.derived.size []) limit

section Watched

variable {derive derive' : Predicate → Run (List FactId)} {refuse : Predicate → Error}
  {codes : SortedMap Predicate Code} {fuel : Nat} {entered : List Predicate} {p : Predicate}

/-- Code runs the same where the facts that it demands are computed the same. -/
theorem exec_congr {code : List Instr} (h : ∀ i ∈ code, ∀ p ∈ i.demands, derive p = derive' p)
    (f : Frame) : exec r derive code f = exec r derive' code f := by
  induction code generalizing f with
  | nil =>
      funext sink
      rw [exec, exec]
  | cons i rest ih =>
      obtain ⟨hi, hrest⟩ := List.forall_mem_cons.mp h
      funext sink
      cases hend : i.isEnd with
      | false =>
          have hdraws : i.draws r derive f = i.draws r derive' f := by
            cases i with
            | derive p dst => rw [Instr.draws, Instr.draws, hi p (List.mem_singleton_self p)]
            | _ => rfl
          rw [exec_draws hend, exec_draws hend, hdraws, funext fun f => ih hrest f]
      | true =>
          cases i with
          | barrier keep => rw [exec_barrier, exec_barrier]
          | emit src => rw [exec_emit, exec_emit]
          | _ => cases hend

theorem runBlocks_congr {blocks : List (List Instr)}
    (h : ∀ block ∈ blocks, ∀ i ∈ block, ∀ p ∈ i.demands, derive p = derive' p) (limit : Option Nat)
    (frames : List Registers) :
    runBlocks r derive limit blocks frames = runBlocks r derive' limit blocks frames := by
  have hblock {block : List Instr} (h : ∀ i ∈ block, ∀ p ∈ i.demands, derive p = derive' p)
      (limit : Option Nat) (frames : List Registers) :
      runBlock r derive limit block frames = runBlock r derive' limit block frames := by
    have hexec : exec r derive block = exec r derive' block := funext (exec_congr h)
    rw [runBlock, runBlock, hexec]
  induction blocks generalizing frames with
  | nil => rw [runBlocks, runBlocks]
  | cons block blocks ih =>
      obtain ⟨hfirst, hrest⟩ := List.forall_mem_cons.mp h
      cases blocks with
      | nil => rw [runBlocks, runBlocks, hblock hfirst]
      | cons next blocks =>
          rw [runBlocks_cons (List.cons_ne_nil _ _), runBlocks_cons (List.cons_ne_nil _ _),
            hblock hfirst, funext fun frames => ih hrest frames]

/-- The code of a body runs the same where the facts it draws from are computed the same. -/
theorem Body.run_compile_congr {b : Body} (h : ∀ p ∈ b.computes, derive p = derive' p)
    (limit : Option Nat) : b.compile.run r derive limit = b.compile.run r derive' limit :=
  runBlocks_congr (fun block hblock i hi p hp => h p (b.demands_compile block hblock i hi p hp)) limit _

/-- Facts that are not computed for a body remain unknown. -/
theorem Body.run_compile_unknown {b : Body} {q : Predicate}
    (h : ∀ p ∈ b.computes, Outcome.Preserves (fun e => e.derived.get? q = none) (derive p))
    (limit : Option Nat) :
    Outcome.Preserves (fun e => e.derived.get? q = none) (b.compile.run r derive limit) :=
  runBlocks_preserves (fun e e' hworld he => by rwa [show e'.derived = e.derived from
      congrArg World.derived hworld]) limit
    (fun block hblock i hi p hp => h p (b.demands_compile block hblock i hi p hp)) _

theorem deriveWatched_of_known {e : Evaluation} {ids : List FactId} (h : e.derived.get? p = some ids) :
    (deriveWatched refuse r codes fuel entered p).run e = .ok (ids, e) := by
  unfold deriveWatched
  rw [StateT.run_bind, StateT.run_get, pure_bind]
  dsimp only
  rw [h]
  rfl

theorem deriveWatched_of_incomplete {e : Evaluation} (h : e.derived.get? p = none)
    (hentered : p ∉ entered) (hstate : FactStore.state r.store ≠ .complete) :
    (deriveWatched refuse r codes fuel entered p).run e = .error (.incomplete (.derivation p)) := by
  unfold deriveWatched
  rw [StateT.run_bind, StateT.run_get, pure_bind]
  dsimp only
  rw [h]
  dsimp only
  rw [if_neg hentered, if_pos hstate]
  rfl

theorem deriveWatched_of_code {e : Evaluation} (h : e.derived.get? p = none) (hentered : p ∉ entered)
    (hstate : FactStore.state r.store = .complete) {code : Code} (hcode : codes.get? p = some code) :
    (deriveWatched refuse r codes (fuel + 1) entered p).run e = StateT.run (do
      let sink ← code.run r (deriveWatched refuse r codes fuel (p :: entered)) none
      if (← get).derived.contains p then throw (refuse p)
      let ids ← sink.values.mapM (addDerived p)
      modify fun e => { e with derived := e.derived.insert p ids }
      return ids) e := by
  conv_lhs => unfold deriveWatched
  rw [StateT.run_bind, StateT.run_get, pure_bind]
  dsimp only
  rw [h]
  dsimp only
  rw [if_neg hentered, if_neg (not_not_intro hstate), hcode]

/-- Where the code of a predicate leaves its facts unknown and draws from others as it does
without a watch, there is nothing to refuse. -/
theorem deriveWatched_step {b : Body} (hentered : p ∉ entered) (hcode : codes.get? p = some b.compile)
    (hsame : ∀ q ∈ b.computes,
      deriveWatched refuse r codes fuel (p :: entered) q = deriveFacts r codes fuel q)
    (hunknown : ∀ q ∈ b.computes,
      Outcome.Preserves (fun e => e.derived.get? p = none) (deriveFacts r codes fuel q)) :
    deriveWatched refuse r codes (fuel + 1) entered p = deriveFacts r codes (fuel + 1) p := by
  funext e
  show (deriveWatched refuse r codes (fuel + 1) entered p).run e = (deriveFacts r codes (fuel + 1) p).run e
  cases hmemo : e.derived.get? p with
  | some ids => rw [deriveWatched_of_known hmemo, deriveFacts_of_known hmemo]
  | none =>
      by_cases hstate : FactStore.state r.store = .complete
      · rw [deriveWatched_of_code hmemo hentered hstate hcode, deriveFacts_of_code hmemo hstate hcode,
          Body.run_compile_congr hsame, StateT.run_bind, StateT.run_bind]
        cases hrun : (b.compile.run r (deriveFacts r codes fuel) none).run e with
        | error x => rfl
        | ok res =>
            have hstill := Body.run_compile_unknown hunknown none e res.1 res.2 hmemo hrun
            show (pure res >>= _ : Except Error _) = pure res >>= _
            rw [pure_bind, pure_bind, StateT.run_bind, StateT.run_get, pure_bind]
            dsimp only
            rw [SortedMap.contains, hstill]
            rfl
      · rw [deriveWatched_of_incomplete hmemo hentered hstate, deriveFacts_of_incomplete hmemo hstate]

/-- Computing the facts of one predicate leaves those of another unknown, where its code does. -/
theorem deriveFacts_unknown {b : Body} {q : Predicate} (hne : q ≠ p)
    (hcode : codes.get? p = some b.compile)
    (hunknown : ∀ p' ∈ b.computes,
      Outcome.Preserves (fun e => e.derived.get? q = none) (deriveFacts r codes fuel p')) :
    Outcome.Preserves (fun e => e.derived.get? q = none) (deriveFacts r codes (fuel + 1) p) := by
  intro e ids e' he h
  replace h : (deriveFacts r codes (fuel + 1) p).run e = .ok (ids, e') := h
  cases hmemo : e.derived.get? p with
  | some ids' =>
      rw [deriveFacts_of_known hmemo] at h
      cases h
      exact he
  | none =>
      by_cases hstate : FactStore.state r.store = .complete
      · rw [deriveFacts_of_code hmemo hstate hcode] at h
        obtain ⟨sink, e₁, hrun, h⟩ := Outcome.stateT_bind_ok_iff.mp h
        obtain ⟨ids', e₂, hids, h⟩ := Outcome.stateT_bind_ok_iff.mp h
        cases h
        have hstill := Body.run_compile_unknown hunknown none e sink e₁ he hrun
        show (e₂.derived.insert p ids).get? q = none
        rw [SortedMap.get?_insert_of_ne hne, (addAllDerived_counts hids).1]
        exact hstill
      · rw [deriveFacts_of_incomplete hmemo hstate] at h
        cases h

/-- To watch for what does not happen changes nothing: not where the predicates that are being
entered have no bodies among those at hand, which are the ones that can be asked for. -/
theorem deriveWatched_eq {s : Schema} {bodies all : Bodies} (hstacked : Stacked s bodies)
    (hle : bodies.Le all) (hderives : ∀ p b, all.get? p = some b → b.Derives s)
    (hfuel : bodies.size ≤ fuel) (hentered : ∀ q ∈ entered, bodies.contains q = false)
    (hp : bodies.contains p = true) :
    deriveWatched refuse r (all.map fun _ b => b.compile) fuel entered p =
        deriveFacts r (all.map fun _ b => b.compile) fuel p ∧
      ∀ q, bodies.contains q = false → Outcome.Preserves (fun e => e.derived.get? q = none)
        (deriveFacts r (all.map fun _ b => b.compile) fuel p) := by
  induction hstacked generalizing fuel entered p with
  | empty => cases hp
  | @push bodies p' d b hstacked hd hderived hnew hcover ih =>
      have hle' : bodies.Le all := fun q x hx => hle q x (le_insert hnew q x hx)
      rw [SortedMap.size_insert_of_get?_none hnew] at hfuel
      have hold {q : Predicate} (hq : (SortedMap.insert bodies p' b).contains q = false) :
          q ≠ p' ∧ bodies.contains q = false := by
        refine ⟨fun heq => ?_, Bool.eq_false_iff.mpr fun hin => ?_⟩
        · rw [contains_insert.mpr (.inl heq)] at hq
          cases hq
        · rw [contains_insert.mpr (.inr hin)] at hq
          cases hq
      rcases contains_insert.mp hp with rfl | hp
      · obtain ⟨fuel, rfl⟩ : ∃ n, fuel = n + 1 := ⟨fuel - 1, by omega⟩
        have hget := hle p b (SortedMap.get?_insert_self ..)
        have hcode : (all.map fun _ b => b.compile).get? p = some b.compile := by
          rw [SortedMap.get?_map, hget]
          rfl
        have hown : bodies.contains p = false := by rw [SortedMap.contains, hnew]; rfl
        have hbelow := fun q hq => ih hle' (Nat.le_of_succ_le_succ hfuel)
          (List.forall_mem_cons.mpr ⟨hown, fun q hq => (hold (hentered q hq)).2⟩)
          ((hderives p b hget).bodied hcover q hq)
        refine ⟨deriveWatched_step (fun hin => (hold (hentered p hin)).1 rfl) hcode
          (fun q hq => (hbelow q hq).1) fun q hq => (hbelow q hq).2 p hown, fun q hq => ?_⟩
        obtain ⟨hne, hq⟩ := hold hq
        exact deriveFacts_unknown hne hcode fun p' hp' => (hbelow p' hp').2 q hq
      · obtain ⟨heq, hunknown⟩ := ih hle' (Nat.le_of_succ_le hfuel)
          (fun q hq => (hold (hentered q hq)).2) hp
        exact ⟨heq, fun q hq => hunknown q (hold hq).2⟩

end Watched

/-- A program in whose bodies all is there that they use computes derived facts as it does when
it is watched. -/
theorem Plan.runWatched_eq {s : Schema} {p : Plan} (hstacked : Stacked s p.derived)
    (hmain : ∀ q ∈ p.main.computes, p.derived.contains q = true)
    (hderives : ∀ q b, p.derived.get? q = some b → b.Derives s) (refuse : Predicate → Error)
    (limit : Option Nat) : p.compile.runWatched refuse r limit = p.compile.run r limit := by
  refine Body.run_compile_congr (fun q hq => ?_) limit
  have hsize : p.compile.derived.size = p.derived.size := List.length_map ..
  rw [hsize]
  exact (deriveWatched_eq hstacked (fun _ _ h => h) hderives (Nat.le_refl _)
    (fun _ h => by cases h) (hmain q hq)).1

/-! ## Queries -/

/-- Where a predicate is part of a circle of keys, so is one that its own key refers to. -/
theorem Schema.Circular.forwards {s : Schema} {p : Predicate} (h : s.Circular p) :
    ∃ q, s.Forwards p q ∧ s.Circular q := by
  obtain ⟨q, hpq, hqp⟩ := Relation.TransGen.head'_iff.mp h
  exact ⟨q, hpq, Relation.TransGen.tail' hqp hpq⟩

/-- References around a circle lead to no type, however often they are followed. -/
theorem TypingContext.follow_circular {c : TypingContext} {p : Predicate} (h : c.schema.Circular p)
    (fuel : Nat) {t : Typing} {r : (List Predicate × Ty) × Typing} :
    c.follow fuel (.predicate p) t ≠ .ok r := by
  induction fuel generalizing p t r with
  | zero =>
      intro hfollow
      obtain ⟨hne, -⟩ | ⟨_, _, _, _, _, _, -, -, hfuel, -⟩ := follow_cases hfollow
      · exact hne p rfl
      · cases hfuel
  | succ fuel ih =>
      intro hfollow
      obtain ⟨hne, -⟩ | ⟨p', d, n, qs, u, t₁, hp, hd, hfuel, -, -, hrest⟩ := follow_cases hfollow
      · exact hne p rfl
      · cases hp
        cases hfuel
        obtain ⟨q, ⟨d', hd', hkey⟩, hq⟩ := h.forwards
        cases hd.symm.trans hd'
        rw [hkey] at hrest
        exact ih hq hrest

/-- Typing a query comes to an end, unless the keys of some predicates refer to one another in a
circle. When it gives a plan, all derived predicates that are drawn from or reached by references
have their bodies in it, and bodies use one another in no circle. So computing the facts of a
predicate does not ask for them again, finds no body missing and comes to an end, and facts that
have been computed are kept and used. -/
theorem Query.derivations_complete {s : Schema} (hs : s.Registered) (q : Query) :
    (q.typed s = .error .endless → ∃ p, s.Circular p) ∧
    ∀ plan, q.typed s = .ok plan →
      Cover s plan.derived plan.main.uses ∧
      (∀ p b, plan.derived.get? p = some b → Cover s plan.derived b.uses) ∧
      (∀ p, ¬ Relation.TransGen (Uses plan.derived) p p) ∧
      ∀ r : Reading σ,
        (∀ refuse limit, plan.compile.runWatched refuse r limit = plan.compile.run r limit) ∧
        Derives (deriveFacts r plan.compile.derived plan.compile.derived.size) := by
  have hcoherent := hs.coherent
  refine ⟨q.typed_ends hcoherent, fun plan hplan => ?_⟩
  have hadvance := q.typed_advance hcoherent hplan
  have hstacked := q.typed_stacked hcoherent hplan
  have hproper := q.typed_proper hcoherent hplan
  have hmain : plan.main.Derives s :=
    TypingContext.body_derives (c := ⟨s, _, _⟩) hcoherent (Query.typed_iff.mp hplan)
  exact ⟨hadvance.cover, fun _ _ hb => hstacked.closed hb, hstacked.acyclic, fun r =>
    ⟨plan.runWatched_eq hstacked (hmain.bodied hadvance.cover) fun _ _ => hproper.derives hcoherent,
      derives_deriveFacts r _ _⟩⟩

theorem Query.derivations_complete_family :
    Cover familySchema familyPlan.derived familyPlan.main.uses ∧
    (∀ p, ¬ Relation.TransGen (Uses familyPlan.derived) p p) ∧
    ∀ refuse limit,
      familyPlan.compile.runWatched refuse ⟨familyStore, familySchema, familySchema, .stored⟩ limit =
        familyPlan.compile.run ⟨familyStore, familySchema, familySchema, .stored⟩ limit := by
  obtain ⟨hcover, -, hacyclic, hrun⟩ :=
    (derivations_complete (σ := MemoryStore) familySchema_registered familyQuery).2 familyPlan
      familyQuery_typed
  exact ⟨hcover, hacyclic, (hrun _).1⟩

/-! ## A circle -/

/-- A predicate whose facts refer to facts of their own predicate, and have nothing else. -/
def circleDecl : SchemaDecl where
  name := "a"
  version := 1
  inherits := []
  imports := []
  items := [.predicate "P" (.named "P") none none]

def circleSchema : Schema := (Schema.builtin.register circleDecl).toOption.getD .builtin

theorem circleSchema_registered : circleSchema.Registered := Schema.Registered.builtin.register_getD _

/-- Asks for the facts whose key, which is a fact, is the number one. -/
def circleQuery : Query := ⟨[⟨none, .predicate "a.P" none (some (.nat 1)) none⟩]⟩

/-- Typing was given up where references lead on without end. -/
def givenUpAsEndless : Except Error Plan → Bool
  | .error .endless => true
  | _ => false

theorem eq_endless {x : Except Error Plan} (h : givenUpAsEndless x = true) : x = .error .endless := by
  unfold givenUpAsEndless at h
  split at h
  · rfl
  · cases h

/-- The two facts about the circle that evaluation tells. -/
theorem circle_evaluated :
    (circleSchema.get? ⟨"a.P", 1⟩).map (·.key) = some (.predicate ⟨"a.P", 1⟩) ∧
      givenUpAsEndless (circleQuery.typed circleSchema) = true := by
  decide +kernel

theorem circleSchema_circular : circleSchema.Circular ⟨"a.P", 1⟩ := by
  obtain ⟨d, hd, hkey⟩ := Option.map_eq_some_iff.mp circle_evaluated.1
  exact .single ⟨d, hd, hkey⟩

/-- Typing need not come to an end: the number is matched against a fact, then against the key of
that, which is a fact, and so on, however often. -/
theorem Query.exists_endless : circleSchema.Registered ∧
    circleQuery.typed circleSchema = .error .endless ∧
    ∀ (c : TypingContext) fuel t r, c.schema = circleSchema →
      c.follow fuel (.predicate ⟨"a.P", 1⟩) t ≠ .ok r :=
  ⟨circleSchema_registered, eq_endless circle_evaluated.2, fun c fuel _ _ hc =>
    TypingContext.follow_circular (hc ▸ circleSchema_circular) fuel⟩

end Factbase
