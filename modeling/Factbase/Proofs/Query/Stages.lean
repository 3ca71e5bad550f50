import Factbase.Proofs.Query.Draws
import Factbase.Proofs.Query.Safety

/-!
# Code of stages

The code of a stage, run from a frame that holds an environment, gathers
what the stage keeps in that environment (`Stage.gathers`). There is one
lemma for each kind of supply. They differ in where candidates come from
and in how much of the key is tested by the machine; what follows, the
match of the stage, is the same for all of them.
-/

namespace Factbase

variable {σ : Type} [FactStore σ] {r : Reading σ} {w : World} {c : PlanContext} {M : Nat → Prop}
variable {env : Env} {k j k' : Nat} {o : Outcome}

/-- What the code of a stage leads to for a candidate that is kept: a frame with what the
candidate stands for in a register, which holds the environment of the candidate. -/
structure Frame.Lands (c : PlanContext) (M : Nat → Prop) (o : Outcome) (k' out : Nat) (f' : Frame)
    (res : Value × Env) : Prop where
  value : f'.regs out = res.1
  fits : o.Holds res.1
  holds : f'.Holds c M res.2
  typed : res.2.Typed c k'

/-- A match against the unit value binds at most a variable to it, which is what the register
of a variable without a value holds. -/
theorem Match.shows_unit (look : Look) {m : Match} {next : Nat} {f : Frame}
    (hm : m.Typed c .unit j k') (hM : ∀ x ∈ m.mentions, M x) (hf : f.Holds c M env)
    (henv : env.Typed c j) :
    Shows w (f.Reaches c M j k' next) (pure f) (m.against look .unit env) := by
  cases m with
  | wild =>
      obtain rfl := hm
      rw [against]
      exact .done (.refl hf henv)
  | bind v =>
      obtain ⟨rfl, rfl, x, hx, hty⟩ := hm
      rw [against]
      refine .done ⟨fun i hi hMi => ?_, henv.bind hx (hty ▸ Ty.conforms_unit), .refl f⟩
      by_cases hiv : i = v
      · rw [hf i hi hMi, hiv, henv.free v (Nat.le_refl v), Env.bind, if_pos rfl]
        rfl
      · rw [hf i hi hMi, Env.bind, if_neg hiv]
  | same v =>
      obtain ⟨rfl, hv, x, hx, hty⟩ := hm
      obtain ⟨y, value, hy, hvalue, hfit⟩ := henv.bound v hv
      obtain rfl : x = y := Option.some.inj (hx.symm.trans hy)
      obtain rfl := Ty.conforms_unit_iff.mp ((Ty.conforms_of_compatible hty value).mp hfit)
      rw [against, Attempt.guard_pos hvalue, pure_bind]
      exact .done (.refl hf henv)
  | lit value =>
      obtain ⟨rfl, hfit, -⟩ := hm
      obtain rfl := Ty.conforms_unit_iff.mp hfit
      rw [against, Attempt.guard_pos rfl, pure_bind]
      exact .done (.refl hf henv)
  | record arity fields =>
      obtain ⟨all, hty, harity, hfields⟩ := hm
      cases hty
      cases fields with
      | nil =>
          obtain rfl := hfields
          have hlen : ([] : List Value).length = arity := harity.symm
          rw [Value.unit, against, Attempt.guard_pos hlen, pure_bind, againstFields]
          exact .done (.refl hf henv)
      | cons entry fields =>
          obtain ⟨i, m⟩ := entry
          obtain ⟨field, -, hfield, -⟩ := hfields
          cases hfield
  | stringStart start => cases hm.2
  | array items =>
      obtain ⟨elem, hty, -⟩ := hm
      cases hty
  | alt index payload =>
      obtain ⟨alts, a, hty, -⟩ := hm
      cases hty
  | deref p key => cases hm.1

namespace Stage

/-! ## Candidates -/

/-- The match of a stage, for the value in a register. -/
theorem shows_bind (hlook : Look.Sound c.schema (r.read w.overlay)) {m : Match} {out next : Nat}
    {f : Frame} {v : Value} (hm : o.Matched c m j k') (hM : ∀ x ∈ m.mentions, M x) (hv : o.Holds v)
    (hreg : f.regs out = v) (hout : Frame.InUse c j next out) (hnext : c.vars.length ≤ next)
    (hf : f.Holds c M env) (henv : env.Typed c j) :
    Shows w (Frame.Lands c M o k' out) (steps r (m.code out next).1 f) (do
      let env' ← m.against (r.read w.overlay) v env
      return (v, env')) := by
  have hland {f' : Frame} {env' : Env} (h : f.Reaches c M j k' next f' env') :
      Frame.Lands c M o k' out f' (v, env') :=
    ⟨(h.keeps out hout).1.trans hreg, hv, h.holds, h.typed⟩
  have hcode {ty : Ty} (htyped : m.Typed c ty j k') (hfit : ty.Conforms v) :
      Shows w (Frame.Lands c M o k' out) (steps r (m.code out next).1 f) (do
        let env' ← m.against (r.read w.overlay) v env
        return (v, env')) := by
    have hrun := Match.steps_code hlook m htyped hM hfit hreg hout hnext hf henv
    have hall := hrun.andThen (f := pure) (g := fun env' => pure (v, env'))
      fun f' env' h => Shows.done (hland h)
    rwa [bind_pure] at hall
  cases o with
  | fact p =>
      obtain ⟨id, rfl⟩ := hv
      exact hcode hm rfl
  | anyFact =>
      obtain ⟨rfl, rfl⟩ := hm
      rw [Match.code, Match.against]
      exact .done (hland (.refl hf henv))
  | value ty => exact hcode hm hv

theorem attempt_fact (s : Stage) (overlay : Overlay) (env : Env) (id : FactId) :
    s.attempt r overlay env (.fact id) = (do
      let f ← s.supply.fetch r overlay id
      let env ← s.supply.onFact (r.read overlay) f env
      let env ← s.bind.against (r.read overlay) (.fact f.id) env
      return (.fact f.id, env)) := by
  simp only [attempt, pure_bind]

theorem attempt_value (s : Stage) (overlay : Overlay) (env : Env) (v : Value) :
    s.attempt r overlay env (.value v) = (do
      let env ← s.bind.against (r.read overlay) v env
      return (v, env)) := by
  simp only [attempt, pure_bind]

/-- A fact that could be fetched is loaded and tested, and then matched. -/
theorem shows_fact (hlook : Look.Sound c.schema (r.read w.overlay)) {s : Stage} {id : FactId}
    {read : Overlay → Except Error (Option Fact)} (count : Fact → Predicate) {load : Fact → Step Frame}
    {test : List Instr} {dst after : Nat} {f : Frame}
    (hfetch : s.supply.fetch r w.overlay id = OptionT.mk (read w.overlay))
    (htest : ∀ fact, read w.overlay = .ok (some fact) →
      Shows w ((f.load dst fact).Reaches c M k j (dst + 1)) (load fact >>= steps r test)
        (s.supply.onFact (r.read w.overlay) fact env))
    (ho : ∀ id, o.Holds (.fact id)) (hm : o.Matched c s.bind j k') (hM : ∀ x ∈ s.bind.mentions, M x)
    (hdst : c.vars.length ≤ dst) (hafter : dst < after) :
    Shows w (Frame.Lands c M o k' dst)
      (fetch read count >>= load >>= steps r (test ++ (s.bind.code dst after).1))
      (s.attempt r w.overlay env (.fact id)) := by
  rw [attempt_fact, hfetch, bind_assoc]
  refine (Shows.fetch read count).andThen ?_
  rintro fact _ ⟨rfl, hread⟩
  have hsteps : load fact >>= steps r (test ++ (s.bind.code dst after).1) =
      load fact >>= steps r test >>= steps r (s.bind.code dst after).1 := by
    rw [bind_assoc]
    exact bind_congr fun f' => steps_append r _ _ f'
  rw [hsteps]
  refine (htest fact hread).andThen fun f' env' h => ?_
  have hreg : f'.regs dst = .fact fact.id :=
    (h.keeps dst (.inr ⟨hdst, Nat.lt_succ_self dst⟩)).1.trans (if_pos rfl)
  exact shows_bind hlook hm hM (ho fact.id) hreg (.inr ⟨hdst, hafter⟩) (by omega) h.holds h.typed

/-! ## Code up to the end of a stage -/

section Gathers

variable {κ : Type} {derive : Predicate → Run (List FactId)} {inv : Sink → Prop} {obs : Sink → List κ}
variable {key : Value × Env → κ}

/-- The results of a candidate, as they are told apart. -/
def gives (key : Value × Env → κ) (s : Stage) (r : Reading σ) (overlay : Overlay) (env : Env)
    (x : Candidate) : Except Error (List κ) :=
  (fun res => (res.map key).toList) <$> (s.attempt r overlay env x).run

theorem map_kept (s : Stage) (overlay : Overlay) (known : List FactId) (env : Env) :
    List.map key <$> s.kept r overlay known env =
      s.supply.candidates r overlay known env >>= collect (s.gives key r overlay env) := by
  rw [kept, map_bind]
  refine bind_congr fun candidates => ?_
  rw [filterMapM_eq_collect, map_collect]
  refine collect_congr_left fun x _ => ?_
  rw [gives, Functor.map_map]
  refine congrArg (· <$> _) (funext fun res => ?_)
  cases res <;> rfl

theorem map_kept_facts {s : Stage} {overlay : Overlay} {known ids : List FactId}
    (h : s.supply.candidates r overlay known env = .ok (ids.map .fact)) :
    List.map key <$> s.kept r overlay known env =
      collect (fun id => s.gives key r overlay env (.fact id)) ids := by
  rw [map_kept, h, ← collect_map]
  rfl

theorem map_kept_error {s : Stage} {overlay : Overlay} {known : List FactId} {x : Error}
    (h : s.supply.candidates r overlay known env = .error x) :
    List.map key <$> s.kept r overlay known env = .error x := by
  rw [map_kept, h]
  rfl

variable [DecidableEq κ]

/-- Straight code, and what comes after it. -/
theorem gathers_steps {P : Frame → Value × Env → Prop} {code rest : List Instr} {f : Frame}
    {results : Attempt (Value × Env)} (hcode : ∀ i ∈ code, i.isStraight = true)
    (hrun : Shows w P (steps r code f) results)
    (hrest : ∀ f' res, P f' res → Gathers w inv obs (exec r derive rest f') (.ok [key res])) :
    Gathers w inv obs (exec r derive (code ++ rest) f)
      ((fun res => (res.map key).toList) <$> results.run) := by
  intro sink e he hinv
  rw [exec_append hcode]
  exact Gathers.of_shows hrun hrest sink e he hinv

/-- An instruction that draws candidates gathers what they give with the rest of the code. -/
theorem gathers_draws {α : Type} {i : Instr} (hi : i.isEnd = false) {xs : List α}
    (step : α → Step Frame) {results : α → Except Error (List κ)} {f : Frame} {rest : List Instr}
    (hdraws : ∀ e, e.world = w → (i.draws r derive f).run e = .ok (xs.map step, e))
    (hstep : ∀ x ∈ xs, Gathers w inv obs ((step x).into (exec r derive rest)) (results x)) :
    Gathers w inv obs (exec r derive (i :: rest) f) (collect results xs) := by
  intro sink e he hinv
  refine (Gathers.visitAll hstep sink e he hinv).of_run ?_
  rw [exec_draws hi, StateT.run_bind, hdraws e he]
  show (visitAll _ (xs.map step) sink).run e = _
  rw [visitAll_map]

/-- An instruction that fails to draw candidates fails. -/
theorem gathers_draws_error {i : Instr} (hi : i.isEnd = false) {x : Error} {f : Frame}
    {rest : List Instr} (hdraws : ∀ e, e.world = w → (i.draws r derive f).run e = .error x) :
    Gathers w inv obs (exec r derive (i :: rest) f) (.error x) := by
  intro sink e he _
  refine .inl ⟨x, rfl, ?_⟩
  rw [exec_draws hi, StateT.run_bind, hdraws e he]
  rfl

/-- A fact that is looked at, if it can be read, loaded and tested, and then matched. -/
theorem gathers_fact (hlook : Look.Sound c.schema (r.read w.overlay)) {s : Stage} {id : FactId}
    {read : Overlay → Except Error (Option Fact)} (count : Fact → Predicate) {load : Fact → Step Frame}
    {test rest : List Instr} {dst after : Nat} {f : Frame}
    (hfetch : s.supply.fetch r w.overlay id = OptionT.mk (read w.overlay))
    (hstraight : ∀ i ∈ test, i.isStraight = true)
    (htest : ∀ fact, read w.overlay = .ok (some fact) →
      Shows w ((f.load dst fact).Reaches c M k j (dst + 1)) (load fact >>= steps r test)
        (s.supply.onFact (r.read w.overlay) fact env))
    (ho : ∀ id, o.Holds (.fact id)) (hm : o.Matched c s.bind j k') (hM : ∀ x ∈ s.bind.mentions, M x)
    (hdst : c.vars.length ≤ dst) (hafter : dst < after)
    (hrest : ∀ f' res, Frame.Lands c M o k' dst f' res →
      Gathers w inv obs (exec r derive rest f') (.ok [key res])) :
    Gathers w inv obs
      ((fetch read count >>= load).into (exec r derive (test ++ (s.bind.code dst after).1 ++ rest)))
      (s.gives key r w.overlay env (.fact id)) := by
  have hcode : ∀ i ∈ test ++ (s.bind.code dst after).1, i.isStraight = true :=
    List.forall_mem_append.mpr ⟨hstraight, Match.isStraight_code _ _ _⟩
  have hrun := shows_fact hlook count hfetch htest ho hm hM hdst hafter
  have hexec : exec r derive (test ++ (s.bind.code dst after).1 ++ rest) = fun f' =>
      (steps r (test ++ (s.bind.code dst after).1) f').into (exec r derive rest) :=
    funext fun f' => funext fun sink => exec_append hcode rest f' sink
  intro sink e he hinv
  rw [hexec, ← Step.into_bind]
  exact Gathers.of_shows hrun hrest sink e he hinv

/-- The same for a fact that is loaded as it was fetched. -/
theorem gathers_fetch (hlook : Look.Sound c.schema (r.read w.overlay)) {s : Stage} {id : FactId}
    {read : Overlay → Except Error (Option Fact)} (test : List Instr) {rest : List Instr}
    {dst after : Nat} {f : Frame} (hfetch : s.supply.fetch r w.overlay id = OptionT.mk (read w.overlay))
    (hstraight : ∀ i ∈ test, i.isStraight = true)
    (htest : ∀ fact, read w.overlay = .ok (some fact) →
      Shows w ((f.load dst fact).Reaches c M k j (dst + 1)) (steps r test (f.load dst fact))
        (s.supply.onFact (r.read w.overlay) fact env))
    (ho : ∀ id, o.Holds (.fact id)) (hm : o.Matched c s.bind j k') (hM : ∀ x ∈ s.bind.mentions, M x)
    (hdst : c.vars.length ≤ dst) (hafter : dst < after)
    (hrest : ∀ f' res, Frame.Lands c M o k' dst f' res →
      Gathers w inv obs (exec r derive rest f') (.ok [key res])) :
    Gathers w inv obs
      ((f.fetch dst read).into (exec r derive (test ++ (s.bind.code dst after).1 ++ rest)))
      (s.gives key r w.overlay env (.fact id)) := by
  rw [Frame.fetch, map_eq_pure_bind]
  refine gathers_fact (k := k) (j := j) (f := f) hlook (·.predicate) hfetch hstraight
    (fun fact hread => ?_) ho hm hM hdst hafter hrest
  rw [pure_bind]
  exact htest fact hread

/-! ### Facts of derived predicates -/

section Facts

variable [LawfulFactStore σ] {met : Content → Prop} {log : List Fact} {p : Predicate}
variable {keyMatch value m : Match} {f : Frame} {rest : List Instr}

theorem onFact_derived (look : Look) (fact : Fact) :
    (Supply.facts p true keyMatch value).onFact look fact env = (do
      let env ← keyMatch.against look fact.key env
      value.against look fact.value env) := by
  rw [Supply.onFact, Match.onKey]
  intro _ h
  cases h

omit [LawfulFactStore σ] in
/-- A derived fact has the unit value, of which the code makes no test. -/
theorem shows_derived (hlook : Look.Sound c.schema (r.read w.overlay)) {i dst next : Nat} {d : Definition}
    {fact : Fact} (hkey : keyMatch.Typed c d.key k i) (hvalue : value.Typed c .unit i j)
    (hMk : ∀ x ∈ keyMatch.mentions, M x) (hMv : ∀ x ∈ value.mentions, M x)
    (hkfit : d.key.Conforms fact.key) (hunit : fact.value = .unit) (hdst : c.vars.length ≤ dst)
    (hnext : dst + 1 = next) (hf : f.Holds c M env) (henv : env.Typed c k) :
    Shows w ((f.load dst fact).Reaches c M k j next)
      (steps r (keyMatch.codeKey dst next).1 (f.load dst fact))
      ((Supply.facts p true keyMatch value).onFact (r.read w.overlay) fact env) := by
  subst hnext
  have hload := Frame.load_reaches hf henv hdst (Nat.le_refl _) fact
  have hkeyRun := Match.shows_codeKey (Match.steps_code hlook keyMatch) (if_pos rfl) hkey hMk hkfit
    (Nat.le_succ_of_le hdst) hload.holds hload.typed
  have hall := Match.shows_then (g := pure) (t := value.against (r.read w.overlay) .unit) hkeyRun hkey.le
    (Nat.le_refl _) fun f' env' hreach => Match.shows_unit _ hvalue hMv hreach.holds hreach.typed
  rw [bind_pure] at hall
  rw [onFact_derived, hunit]
  exact hall

theorem gathers_derived (h : r.Over met log) (hw : w.Good r) (hc : c.schema = r.target)
    (hs : (⟨.facts p true keyMatch value, m⟩ : Stage).Typed c o k k')
    (hM : ∀ x ∈ (⟨.facts p true keyMatch value, m⟩ : Stage).mentions, M x)
    {known : List FactId} (hknown : ∀ e, e.world = w → (derive p).run e = .ok (known, e))
    (hmemo : w.derived.get? p = some known) (hf : f.Holds c M env) (henv : env.Typed c k)
    (hrest : ∀ f' res, Frame.Lands c M o k' c.vars.length f' res →
      Gathers w inv obs (exec r derive rest f') (.ok [key res])) :
    Gathers w inv obs
      (exec r derive (((⟨.facts p true keyMatch value, m⟩ : Stage).code c.vars.length).1 ++ rest) f)
      (List.map key <$> (⟨.facts p true keyMatch value, m⟩ : Stage).kept r w.overlay known env) := by
  obtain ⟨j, ⟨rfl, d, i, hd, -, hderived, hkey, hvalue⟩, hm⟩ := hs
  obtain ⟨hMfact, hMm⟩ := List.forall_mem_append.mp hM
  obtain ⟨hMk, hMv⟩ := List.forall_mem_append.mp hMfact
  have hlook : Look.Sound c.schema (r.read w.overlay) := hc ▸ h.look_sound hw
  have hunit : d.value = .unit := by
    obtain ⟨body, hbody⟩ := Option.isSome_iff_exists.mp hderived.symm
    exact h.coherent.derived p d body (hc ▸ hd) hbody
  have ho : ∀ id, (Outcome.fact p).Holds (.fact id) := fun id => ⟨id, rfl⟩
  have hcandidates : (Supply.facts p true keyMatch value).candidates r w.overlay known env =
      .ok (known.map Candidate.fact) := rfl
  rw [map_kept_facts hcandidates]
  refine gathers_draws (i := .derive p c.vars.length) rfl
    (fun id => f.fetch c.vars.length fun overlay => .ok (overlay.get? id)) (fun e he => ?_)
    fun id hid => ?_
  · show ((derive p).run e >>= _) = _
    rw [hknown e he]
    rfl
  · obtain ⟨fact, hget, hp⟩ := hw.memo p known hmemo id hid
    obtain ⟨-, d', hd', hkfit, hvfit⟩ := hw.facts id fact hget
    refine gathers_fetch (s := ⟨.facts p true keyMatch value, m⟩) (k := k) hlook _ rfl
      (Match.isStraight_codeKey _ _ _) (fun fact' hread => ?_) ho hm hMm (Nat.le_refl _)
      (Match.le_codeKey c.vars.length keyMatch (c.vars.length + 1)) hrest
    cases hget.symm.trans (Except.ok.inj hread)
    subst hp
    obtain rfl : d = d' := Option.some.inj ((hc ▸ hd).symm.trans hd')
    rw [hunit] at hvalue hvfit
    exact shows_derived hlook hkey hvalue hMk hMv hkfit (Ty.conforms_unit_iff.mp hvfit)
      (Nat.le_refl _) rfl hf henv

/-! ### Facts of stored predicates -/

theorem onFact_scanned (look : Look) (fact : Fact) (hexpr : keyMatch.expr? = none) :
    (Supply.facts p false keyMatch value).onFact look fact env = (do
      let env ← keyMatch.against look fact.key env
      value.against look fact.value env) := by
  have hkey : keyMatch.onKey look false fact env = keyMatch.against look fact.key env := by
    rw [Match.onKey.eq_def, hexpr]
  rw [Supply.onFact, hkey]

theorem onFact_sought (look : Look) (fact : Fact) {e : Expr} (hexpr : keyMatch.expr? = some e) :
    (Supply.facts p false keyMatch value).onFact look fact env = (do
      guard (e.eval env = some fact.key)
      value.against look fact.value env) := by
  have hkey : keyMatch.onKey look false fact env = (do
      guard (e.eval env = some fact.key)
      return env) := by
    rw [Match.onKey.eq_def, hexpr]
  rw [Supply.onFact, hkey]
  simp only [bind_assoc, pure_bind]

omit [LawfulFactStore σ] in
/-- What is read as a fact of a predicate fits its definition. -/
theorem fits_of_read (hlook : Look.Sound c.schema (r.read w.overlay)) {d : Definition}
    (hd : c.schema.get? p = some d) {id : FactId} {fact : Fact}
    (hread : r.read w.overlay id p = .ok (some fact)) :
    d.key.Conforms fact.key ∧ d.value.Conforms fact.value := by
  obtain ⟨-, rfl, d', hd', hkfit, hvfit⟩ := hlook id p fact hread
  obtain rfl : d = d' := Option.some.inj (hd.symm.trans hd')
  exact ⟨hkfit, hvfit⟩

omit [LawfulFactStore σ] [DecidableEq κ] in
/-- Nothing is given for what cannot be read as a fact of the predicate. -/
theorem gives_unreadable {derived : Bool} {id : FactId}
    (hfetch : (Supply.facts p derived keyMatch value).fetch r w.overlay id =
      OptionT.mk (r.read w.overlay id p))
    (hnone : r.read w.overlay id p = .ok none) :
    gives key ⟨.facts p derived keyMatch value, m⟩ r w.overlay env (.fact id) = .ok [] := by
  rw [gives, attempt_fact, hfetch, OptionT.run_bind, OptionT.run_mk, hnone]
  rfl

omit [LawfulFactStore σ] [DecidableEq κ] in
/-- Nothing is given for a fact with another key than the one that is sought. -/
theorem gives_other_key {e : Expr} (hexpr : keyMatch.expr? = some e) {id : FactId} {fact : Fact}
    (hread : r.read w.overlay id p = .ok (some fact)) (hne : e.eval env ≠ some fact.key) :
    gives key ⟨.facts p false keyMatch value, m⟩ r w.overlay env (.fact id) = .ok [] := by
  have hfetch : (Supply.facts p false keyMatch value).fetch r w.overlay id =
      OptionT.mk (r.read w.overlay id p) := rfl
  rw [gives, attempt_fact, hfetch, OptionT.run_bind, OptionT.run_mk, hread]
  show _ <$> (OptionT.run ((Supply.facts p false keyMatch value).onFact _ fact env >>= _)) = _
  rw [onFact_sought _ _ hexpr, Attempt.guard_neg hne]
  rfl

omit [LawfulFactStore σ] in
/-- The tests of the key and then of the value of a fact in a register. -/
theorem shows_scanned (hlook : Look.Sound c.schema (r.read w.overlay))
    (hexpr : keyMatch.expr? = none) {i dst next : Nat} {d : Definition} {fact : Fact}
    (hkey : keyMatch.Typed c d.key k i) (hvalue : value.Typed c d.value i j)
    (hMk : ∀ x ∈ keyMatch.mentions, M x) (hMv : ∀ x ∈ value.mentions, M x)
    (hkfit : d.key.Conforms fact.key) (hvfit : d.value.Conforms fact.value)
    (hdst : c.vars.length ≤ dst) (hnext : dst + 1 = next) (hf : f.Holds c M env)
    (henv : env.Typed c k) :
    Shows w ((f.load dst fact).Reaches c M k j next)
      (steps r ((keyMatch.codeKey dst next).1 ++
        (value.codeValue dst (keyMatch.codeKey dst next).2).1) (f.load dst fact))
      ((Supply.facts p false keyMatch value).onFact (r.read w.overlay) fact env) := by
  subst hnext
  have hload := Frame.load_reaches hf henv hdst (Nat.le_refl _) fact
  have hafter := Match.le_codeKey dst keyMatch (dst + 1)
  rw [onFact_scanned _ _ hexpr, steps_append]
  have hkeyRun := Match.shows_codeKey (Match.steps_code hlook keyMatch) (if_pos rfl) hkey hMk hkfit
    (Nat.le_succ_of_le hdst) hload.holds hload.typed
  refine Match.shows_then hkeyRun hkey.le hafter fun f' env' hreach => ?_
  have hloaded : f'.facts dst = some fact :=
    (hreach.keeps _ (.inr ⟨hdst, Nat.lt_succ_self _⟩)).2.trans (if_pos rfl)
  exact Match.shows_codeValue (Match.steps_code hlook value) hloaded hvalue hMv hvfit
    (Nat.le_trans hdst (Nat.le_of_succ_le hafter)) hreach.holds hreach.typed

theorem gathers_scanned (h : r.Over met log) (hw : w.Good r) (hc : c.schema = r.target)
    (hexpr : keyMatch.expr? = none)
    (hs : (⟨.facts p false keyMatch value, m⟩ : Stage).Typed c o k k')
    (hM : ∀ x ∈ (⟨.facts p false keyMatch value, m⟩ : Stage).mentions, M x) (known : List FactId)
    (hf : f.Holds c M env) (henv : env.Typed c k)
    (hrest : ∀ f' res, Frame.Lands c M o k' c.vars.length f' res →
      Gathers w inv obs (exec r derive rest f') (.ok [key res])) :
    Gathers w inv obs
      (exec r derive (((⟨.facts p false keyMatch value, m⟩ : Stage).code c.vars.length).1 ++ rest) f)
      (List.map key <$> (⟨.facts p false keyMatch value, m⟩ : Stage).kept r w.overlay known env) := by
  obtain ⟨j, ⟨rfl, d, i, hd, -, -, hkey, hvalue⟩, hm⟩ := hs
  obtain ⟨hMfact, hMm⟩ := List.forall_mem_append.mp hM
  obtain ⟨hMk, hMv⟩ := List.forall_mem_append.mp hMfact
  have hlook : Look.Sound c.schema (r.read w.overlay) := hc ▸ h.look_sound hw
  have ho : ∀ id, (Outcome.fact p).Holds (.fact id) := fun id => ⟨id, rfl⟩
  have hafter := Nat.le_trans (Match.le_codeKey c.vars.length keyMatch (c.vars.length + 1))
    (Match.le_codeValue c.vars.length value (keyMatch.codeKey c.vars.length (c.vars.length + 1)).2)
  have hcode : ((⟨.facts p false keyMatch value, m⟩ : Stage).code c.vars.length).1 =
      .scan p c.vars.length :: ((keyMatch.codeKey c.vars.length (c.vars.length + 1)).1 ++
        (value.codeValue c.vars.length (keyMatch.codeKey c.vars.length (c.vars.length + 1)).2).1 ++
        (m.code c.vars.length (value.codeValue c.vars.length
          (keyMatch.codeKey c.vars.length (c.vars.length + 1)).2).2).1) := by
    rw [Stage.code, Supply.code, hexpr]
    rfl
  have hcandidates : (Supply.facts p false keyMatch value).candidates r w.overlay known env =
      .ok ((FactStore.ids r.store).map Candidate.fact) := by
    rw [Supply.candidates, hexpr]
    rfl
  rw [map_kept_facts hcandidates, hcode]
  have hall : Gathers w inv obs (exec r derive _ f) (collect _ (r.scan p)) :=
    gathers_draws (i := .scan p c.vars.length) rfl
      (fun id => f.fetch c.vars.length (r.read · id p)) (fun _ _ => rfl) fun id _ =>
        gathers_fetch (s := ⟨.facts p false keyMatch value, m⟩) hlook _ rfl
          (List.forall_mem_append.mpr
            ⟨Match.isStraight_codeKey _ _ _, Match.isStraight_codeValue _ _ _⟩)
          (fun fact hread =>
            have hfit := fits_of_read hlook hd hread
            shows_scanned hlook hexpr hkey hvalue hMk hMv hfit.1 hfit.2 (Nat.le_refl _) rfl hf henv)
          ho hm hMm (Nat.le_refl _) hafter hrest
  exact hall.congr (h.gather_scan hw fun id => gives_unreadable rfl)

omit [LawfulFactStore σ] in
/-- Facts are sought by an operand that has the value of the expression for their keys. -/
theorem code_seek (r : Reading σ) {e : Expr} (hexpr : keyMatch.expr? = some e) {ty : Ty}
    (hkey : keyMatch.Typed c ty k j) (hM : ∀ x ∈ keyMatch.mentions, M x)
    (p : Predicate) (value : Match) :
    ∃ pre operand dst, (Supply.facts p false keyMatch value).code c.vars.length =
        (pre ++ .seek p operand dst :: (value.codeValue dst (dst + 1)).1, dst,
          (value.codeValue dst (dst + 1)).2) ∧
      (∀ i ∈ pre, i.isStraight = true) ∧ c.vars.length ≤ dst ∧
      ∀ f env, f.Holds c M env → env.Typed c k → ∃ f', steps r pre f = pure f' ∧ f'.Holds c M env ∧
        e.eval env = some (operand.eval f'.regs) := by
  obtain ⟨-, htyped, hMe⟩ := Match.expr?_typed keyMatch hkey hM hexpr
  cases hconst : e.constant? with
  | some v =>
      refine ⟨[], .const v, c.vars.length, ?_, List.forall_mem_nil _, Nat.le_refl _,
        fun f env hf _ => ⟨f, rfl, hf, e.eval_of_constant? hconst⟩⟩
      rw [Supply.code, hexpr]
      dsimp only
      rw [hconst]
      rfl
  | none =>
      refine ⟨(e.code c.vars.length).1, .reg (e.code c.vars.length).2.1, (e.code c.vars.length).2.2, ?_,
        e.isStraight_code _, (e.code_registers htyped (Nat.le_refl _)).1, fun f env hf henv => ?_⟩
      · rw [Supply.code, hexpr]
        dsimp only
        rw [hconst]
      · obtain ⟨f', hsteps, hreach, hv⟩ := e.steps_code (r := r) henv htyped hMe (Nat.le_refl _) hf
        exact ⟨f', hsteps, hreach.holds, hv⟩

omit [LawfulFactStore σ] in
/-- The test of a fact with the key that is sought: of its value only. -/
theorem shows_sought (hlook : Look.Sound c.schema (r.read w.overlay)) {e : Expr}
    (hexpr : keyMatch.expr? = some e) {dst next : Nat} {ty : Ty} {sought : Value} {fact : Fact}
    (heval : e.eval env = some sought) (hvalue : value.Typed c ty k j)
    (hMv : ∀ x ∈ value.mentions, M x) (hvfit : ty.Conforms fact.value)
    (hdst : c.vars.length ≤ dst) (hnext : dst + 1 = next) (hf : f.Holds c M env)
    (henv : env.Typed c k) :
    Shows w ((f.load dst fact).Reaches c M k j next)
      ((if fact.key = sought then pure (f.load dst fact) else failure) >>=
        steps r (value.codeValue dst next).1)
      ((Supply.facts p false keyMatch value).onFact (r.read w.overlay) fact env) := by
  subst hnext
  have hload := Frame.load_reaches hf henv hdst (Nat.le_refl _) fact
  rw [onFact_sought _ _ hexpr, heval]
  by_cases hfound : fact.key = sought
  · rw [if_pos hfound, Attempt.guard_pos (congrArg some hfound.symm), pure_bind, pure_bind]
    exact Match.shows_codeValue (Match.steps_code hlook value) (if_pos rfl) hvalue hMv hvfit
      (Nat.le_succ_of_le hdst) hload.holds hload.typed
  · rw [if_neg hfound, Attempt.guard_neg fun heq => hfound (Option.some.inj heq).symm]
    exact .givesUp

theorem gathers_sought (h : r.Over met log) (hw : w.Good r) (hc : c.schema = r.target) {e : Expr}
    (hexpr : keyMatch.expr? = some e)
    (hs : (⟨.facts p false keyMatch value, m⟩ : Stage).Typed c o k k')
    (hM : ∀ x ∈ (⟨.facts p false keyMatch value, m⟩ : Stage).mentions, M x) (known : List FactId)
    (hf : f.Holds c M env) (henv : env.Typed c k)
    (hrest : ∀ f' res, Frame.Lands c M o k'
        ((⟨.facts p false keyMatch value, m⟩ : Stage).code c.vars.length).2.1 f' res →
      Gathers w inv obs (exec r derive rest f') (.ok [key res])) :
    Gathers w inv obs
      (exec r derive (((⟨.facts p false keyMatch value, m⟩ : Stage).code c.vars.length).1 ++ rest) f)
      (List.map key <$> (⟨.facts p false keyMatch value, m⟩ : Stage).kept r w.overlay known env) := by
  obtain ⟨j, ⟨rfl, d, i, hd, -, -, hkey, hvalue⟩, hm⟩ := hs
  obtain ⟨hMfact, hMm⟩ := List.forall_mem_append.mp hM
  obtain ⟨hMk, hMv⟩ := List.forall_mem_append.mp hMfact
  obtain ⟨rfl, -⟩ := Match.expr?_typed keyMatch hkey hMk hexpr
  obtain ⟨pre, operand, dst, hcode, hpre, hdst, hrun⟩ := code_seek r hexpr hkey hMk p value
  obtain ⟨f₁, hsteps, hf₁, heval⟩ := hrun f env hf henv
  have hlook : Look.Sound c.schema (r.read w.overlay) := hc ▸ h.look_sound hw
  have ho : ∀ id, (Outcome.fact p).Holds (.fact id) := fun id => ⟨id, rfl⟩
  have hstage : (⟨.facts p false keyMatch value, m⟩ : Stage).code c.vars.length =
      (pre ++ .seek p operand dst :: (value.codeValue dst (dst + 1)).1 ++
        (m.code dst (value.codeValue dst (dst + 1)).2).1, dst,
        (m.code dst (value.codeValue dst (dst + 1)).2).2) := by
    rw [Stage.code, hcode]
  rw [hstage] at hrest ⊢
  dsimp only at hrest ⊢
  have hexec : exec r derive (pre ++ .seek p operand dst ::
      (value.codeValue dst (dst + 1)).1 ++ (m.code dst (value.codeValue dst (dst + 1)).2).1 ++ rest) f =
      exec r derive (.seek p operand dst :: ((value.codeValue dst (dst + 1)).1 ++
        (m.code dst (value.codeValue dst (dst + 1)).2).1 ++ rest)) f₁ := by
    funext sink
    rw [List.append_assoc, List.append_assoc, exec_append hpre, hsteps, Step.into_pure,
      List.cons_append, List.append_assoc]
  rw [hexec]
  rcases r.seek_cases p (operand.eval f₁.regs) with ⟨ids, hseek, hprepare⟩ | ⟨x, hseek, hprepare⟩
  · have hcandidates : (Supply.facts p false keyMatch value).candidates r w.overlay known env =
        .ok ((FactStore.ids r.store).map Candidate.fact) := by
      rw [Supply.candidates, hexpr]
      show (r.prepare p >>= _) = _
      rw [hprepare]
      rfl
    rw [map_kept_facts hcandidates]
    have hall : Gathers w inv obs (exec r derive _ f₁) (collect _ ids) :=
      gathers_draws (i := .seek p operand dst) rfl (fun id => do
          let fact ← fetch (r.read · id p) fun _ => p
          if fact.key = operand.eval f₁.regs then return f₁.load dst fact else failure)
        (fun e he => by
          rw [Instr.draws, hseek]
          rfl)
        fun id _ => gathers_fact (s := ⟨.facts p false keyMatch value, m⟩) hlook (fun _ => p) rfl
          (Match.isStraight_codeValue _ _ _)
          (fun fact hread => shows_sought hlook hexpr heval hvalue hMv
            (fits_of_read hlook hd hread).2 hdst rfl hf₁ henv)
          ho hm hMm hdst (Match.le_codeValue dst value (dst + 1)) hrest
    refine hall.congr (h.gather_seek hw hseek (fun id => gives_unreadable rfl)
      fun id fact hread hne => gives_other_key hexpr hread ?_)
    rw [heval]
    exact fun heq => hne (Option.some.inj heq).symm
  · have hcandidates : (Supply.facts p false keyMatch value).candidates r w.overlay known env =
        .error x := by
      rw [Supply.candidates, hexpr]
      show (r.prepare p >>= _) = _
      rw [hprepare]
      rfl
    rw [map_kept_error hcandidates]
    refine gathers_draws_error (i := .seek p operand dst) rfl fun e _ => ?_
    rw [Instr.draws, hseek]
    rfl

/-! ### A fact by its id -/

/-- A fact is drawn by its id from the derived facts, or else from the store with its siblings:
in whatever way it is read, it is read as any fact of its id would be. -/
theorem load_cases (h : r.Over met log) (hfree : Collisionless met)
    (derive : Predicate → Run (List FactId)) (n : UInt64) (dst : Nat) (known : List FactId) (env : Env)
    (f : Frame) :
    (∃ drawn : List (FactId × (Overlay → Except Error (Option Fact))),
      (Supply.factId n).candidates r w.overlay known env = .ok ((drawn.map Prod.fst).map .fact) ∧
      (∀ x ∈ drawn, x.2 w.overlay = r.readAny w.overlay x.1) ∧
      ∀ e, e.world = w → ((Instr.load ⟨n⟩ dst).draws r derive f).run e =
        .ok (drawn.map fun x => f.fetch dst x.2, e)) ∨
    ∃ x, (Supply.factId n).candidates r w.overlay known env = .error x ∧
      ∀ e, e.world = w → ((Instr.load ⟨n⟩ dst).draws r derive f).run e = .error x := by
  have hoverlay {e : Evaluation} (he : e.world = w) : e.overlay = w.overlay := congrArg World.overlay he
  cases hget : w.overlay.get? ⟨n⟩ with
  | some fact =>
      refine .inl ⟨[(⟨n⟩, fun _ => .ok (some fact))], ?_, List.forall_mem_singleton.mpr ?_,
        fun e he => ?_⟩
      · rw [Supply.candidates, hget]
        rfl
      · show Except.ok (some fact) = r.readAny w.overlay ⟨n⟩
        rw [Reading.readAny, hget]
        rfl
      · rw [Instr.draws, StateT.run_bind, StateT.run_get, pure_bind]
        dsimp only
        rw [hoverlay he, hget]
        rfl
  | none =>
      cases hlookup : FactStore.lookup r.store ⟨n⟩ with
      | none =>
          refine .inr ⟨.notFound (.fact ⟨n⟩), ?_, fun e he => ?_⟩
          · rw [Supply.candidates, hget, hlookup]
            rfl
          · rw [Instr.draws, StateT.run_bind, StateT.run_get, pure_bind]
            dsimp only
            rw [hoverlay he, hget, hlookup]
            rfl
      | some stored =>
          obtain ⟨hstored, hid⟩ := h.on.lookup_iff.mp hlookup
          refine .inl ⟨(⟨n⟩, fun _ => some <$> r.readStored stored) ::
            (r.siblings stored).map fun id => (id, (r.readAny · id)), ?_, ?_, fun e he => ?_⟩
          · rw [Supply.candidates, hget, hlookup, List.map_cons, List.map_map]
            show Except.ok _ = Except.ok (List.map _ (_ :: List.map id _))
            rw [List.map_id]
          · refine List.forall_mem_cons.mpr ⟨?_, List.forall_mem_map.mpr fun id _ => rfl⟩
            show _ = r.readAny w.overlay ⟨n⟩
            rw [Reading.readAny, hget, hlookup]
          · rw [Instr.draws, StateT.run_bind, StateT.run_get, pure_bind]
            dsimp only
            rw [hoverlay he, hget, hlookup, ← hid]
            show Except.ok (_ :: List.map _ (List.filter _ _), e) = _
            rw [h.siblings_eq hfree hstored, List.map_cons, List.map_map]
            rfl

theorem gathers_factId (h : r.Over met log) (hfree : Collisionless met) (hw : w.Good r)
    (hc : c.schema = r.target) {n : UInt64} (hs : (⟨.factId n, m⟩ : Stage).Typed c o k k')
    (hM : ∀ x ∈ (⟨.factId n, m⟩ : Stage).mentions, M x) (known : List FactId)
    (hf : f.Holds c M env) (henv : env.Typed c k)
    (hrest : ∀ f' res, Frame.Lands c M o k' c.vars.length f' res →
      Gathers w inv obs (exec r derive rest f') (.ok [key res])) :
    Gathers w inv obs
      (exec r derive (((⟨.factId n, m⟩ : Stage).code c.vars.length).1 ++ rest) f)
      (List.map key <$> (⟨.factId n, m⟩ : Stage).kept r w.overlay known env) := by
  obtain ⟨j, ⟨rfl, rfl⟩, hm⟩ := hs
  have hlook : Look.Sound c.schema (r.read w.overlay) := hc ▸ h.look_sound hw
  have ho : ∀ id, Outcome.anyFact.Holds (.fact id) := fun id => ⟨id, rfl⟩
  rcases load_cases h hfree derive n c.vars.length known env f with
    ⟨drawn, hcandidates, hread, hdraws⟩ | ⟨x, hcandidates, hdraws⟩
  · rw [map_kept_facts hcandidates, collect_map]
    refine gathers_draws rfl (fun x => f.fetch c.vars.length x.2) hdraws fun x hx => ?_
    have hfetch : (Supply.factId n).fetch r w.overlay x.1 = OptionT.mk (x.2 w.overlay) := by
      rw [hread x hx]
      rfl
    refine gathers_fetch (s := ⟨.factId n, m⟩) (k := j) hlook [] hfetch
      (List.forall_mem_nil _) (fun fact _ => ?_) ho hm hM (Nat.le_refl _) (Nat.lt_succ_self _) hrest
    exact .done (.refl (Frame.load_reaches hf henv (Nat.le_refl _) (Nat.le_refl _) fact).holds henv)
  · rw [map_kept_error hcandidates]
    exact gathers_draws_error rfl hdraws

/-! ### Computed values -/

section Values

omit [LawfulFactStore σ]

/-- Code that computes a value, and then matches it. -/
theorem gathers_value (hlook : Look.Sound c.schema (r.read w.overlay)) {s : Stage} {v : Value}
    {draw : List Instr} {out next : Nat} {f' : Frame}
    (hcode : s.supply.code c.vars.length = (draw, out, next))
    (hdraw : ∀ i ∈ draw, i.isStraight = true)
    {known : List FactId} (hcandidates : s.supply.candidates r w.overlay known env = .ok [.value v])
    (hsteps : steps r draw f = pure f') (hf' : f'.Holds c M env) (hreg : f'.regs out = v)
    (hout : Frame.InUse c k next out) (hnext : c.vars.length ≤ next) (hv : o.Holds v)
    (hm : o.Matched c s.bind k k') (hM : ∀ x ∈ s.bind.mentions, M x) (henv : env.Typed c k)
    (hrest : ∀ f' res, Frame.Lands c M o k' out f' res →
      Gathers w inv obs (exec r derive rest f') (.ok [key res])) :
    Gathers w inv obs (exec r derive ((s.code c.vars.length).1 ++ rest) f)
      (List.map key <$> s.kept r w.overlay known env) := by
  have hstage : (s.code c.vars.length).1 = draw ++ (s.bind.code out next).1 := by
    rw [Stage.code, hcode]
  have hkept : List.map key <$> s.kept r w.overlay known env =
      s.gives key r w.overlay env (.value v) := by
    rw [map_kept, hcandidates]
    exact collect_singleton _ _
  rw [hstage, hkept, gives, attempt_value]
  refine gathers_steps (List.forall_mem_append.mpr ⟨hdraw, Match.isStraight_code _ _ _⟩) ?_ hrest
  rw [steps_append, hsteps, pure_bind]
  exact shows_bind hlook hm hM hv hreg hout hnext hf' henv

theorem gathers_expr (hlook : Look.Sound c.schema (r.read w.overlay)) {e : Expr}
    (hs : (⟨.expr e, m⟩ : Stage).Typed c o k k')
    (hM : ∀ x ∈ (⟨.expr e, m⟩ : Stage).mentions, M x) (known : List FactId)
    (hf : f.Holds c M env) (henv : env.Typed c k)
    (hrest : ∀ f' res, Frame.Lands c M o k' (e.code c.vars.length).2.1 f' res →
      Gathers w inv obs (exec r derive rest f') (.ok [key res])) :
    Gathers w inv obs (exec r derive (((⟨.expr e, m⟩ : Stage).code c.vars.length).1 ++ rest) f)
      (List.map key <$> (⟨.expr e, m⟩ : Stage).kept r w.overlay known env) := by
  obtain ⟨j, ⟨rfl, ty, rfl, he⟩, hm⟩ := hs
  obtain ⟨hMe, hMm⟩ := List.forall_mem_append.mp hM
  obtain ⟨f', hsteps, hreach, heval⟩ := e.steps_code (r := r) henv he hMe (Nat.le_refl _) hf
  obtain ⟨v, hv, hfit⟩ := Expr.eval_conforms henv e he
  obtain ⟨hnext, hout⟩ := e.code_registers he (Nat.le_refl _)
  refine gathers_value (s := ⟨.expr e, m⟩) hlook rfl (e.isStraight_code _) ?_ hsteps hreach.holds
    (Option.some.inj (heval.symm.trans hv)) hout hnext (Outcome.holds_ofTy hfit) hm hMm henv hrest
  rw [Supply.candidates, hv]
  rfl

theorem gathers_prim (hlook : Look.Sound c.schema (r.read w.overlay)) {function : Prim} {arg : Expr}
    (hs : (⟨.prim function arg, m⟩ : Stage).Typed c o k k')
    (hM : ∀ x ∈ (⟨.prim function arg, m⟩ : Stage).mentions, M x) (known : List FactId)
    (hf : f.Holds c M env) (henv : env.Typed c k)
    (hrest : ∀ f' res, Frame.Lands c M o k' (arg.code c.vars.length).2.2 f' res →
      Gathers w inv obs (exec r derive rest f') (.ok [key res])) :
    Gathers w inv obs
      (exec r derive (((⟨.prim function arg, m⟩ : Stage).code c.vars.length).1 ++ rest) f)
      (List.map key <$> (⟨.prim function arg, m⟩ : Stage).kept r w.overlay known env) := by
  obtain ⟨j, ⟨rfl, rfl, ty, htakes, harg⟩, hm⟩ := hs
  obtain ⟨hMarg, hMm⟩ := List.forall_mem_append.mp hM
  obtain ⟨f₁, hsteps, hreach, heval⟩ := arg.steps_code (r := r) henv harg hMarg (Nat.le_refl _) hf
  obtain ⟨v, hv, hfit⟩ := Expr.eval_conforms henv arg harg
  obtain ⟨u, hu, hufit⟩ := function.apply_conforms htakes hfit
  obtain ⟨hnext, hout⟩ := arg.code_registers harg (Nat.le_refl _)
  have hreg : f₁.regs (arg.code c.vars.length).2.1 = v := Option.some.inj (heval.symm.trans hv)
  have hput := Frame.put_reaches hreach.holds henv hnext (Nat.le_refl _) u
  have hprim : (Instr.prim function (arg.code c.vars.length).2.1 (arg.code c.vars.length).2.2).step r f₁ =
      pure (f₁.put (arg.code c.vars.length).2.2 u) := by
    rw [Instr.step, hreg, hu]
    rfl
  have hfits : (Outcome.value function.gives).Holds u := hufit
  refine gathers_value (s := ⟨.prim function arg, m⟩) hlook rfl ?_ ?_ ?_ hput.holds (if_pos rfl)
    (.inr ⟨hnext, Nat.lt_succ_self _⟩) (Nat.le_succ_of_le hnext) hfits hm hMm henv hrest
  · exact List.forall_mem_append.mpr ⟨arg.isStraight_code _, List.forall_mem_singleton.mpr rfl⟩
  · rw [Supply.candidates, hv]
    dsimp only
    rw [hu]
    rfl
  · rw [steps_append, hsteps, pure_bind, Match.steps_cons_pure hprim, steps]

end Values

/-! ### All kinds of supplies -/

/-- The derived facts that a stage draws from are there already. -/
def KnowsDerived (derive : Predicate → Run (List FactId)) (w : World) (s : Stage)
    (known : List FactId) : Prop :=
  ∀ p key value, s.supply = .facts p true key value →
    w.derived.get? p = some known ∧ ∀ e, e.world = w → (derive p).run e = .ok (known, e)

/-- The code of a stage gathers what the stage keeps. -/
theorem gathers (h : r.Over met log) (hfree : Collisionless met) (hw : w.Good r)
    (hc : c.schema = r.target) {s : Stage} (hs : s.Typed c o k k') (hM : ∀ x ∈ s.mentions, M x)
    {known : List FactId} (hknown : KnowsDerived derive w s known) (hf : f.Holds c M env)
    (henv : env.Typed c k)
    (hrest : ∀ f' res, Frame.Lands c M o k' (s.code c.vars.length).2.1 f' res →
      Gathers w inv obs (exec r derive rest f') (.ok [key res])) :
    Gathers w inv obs (exec r derive ((s.code c.vars.length).1 ++ rest) f)
      (List.map key <$> s.kept r w.overlay known env) := by
  have hlook : Look.Sound c.schema (r.read w.overlay) := hc ▸ h.look_sound hw
  obtain ⟨supply, m⟩ := s
  cases supply with
  | facts p derived keyMatch value =>
      cases derived with
      | true =>
          obtain ⟨hmemo, hderive⟩ := hknown p keyMatch value rfl
          exact gathers_derived h hw hc hs hM hderive hmemo hf henv hrest
      | false =>
          cases hexpr : keyMatch.expr? with
          | some e => exact gathers_sought h hw hc hexpr hs hM known hf henv hrest
          | none =>
              have hout : ((⟨.facts p false keyMatch value, m⟩ : Stage).code c.vars.length).2.1 =
                  c.vars.length := by
                rw [Stage.code, Supply.code, hexpr]
              rw [hout] at hrest
              exact gathers_scanned h hw hc hexpr hs hM known hf henv hrest
  | factId n => exact gathers_factId h hfree hw hc hs hM known hf henv hrest
  | prim function arg => exact gathers_prim hlook hs hM known hf henv hrest
  | expr e => exact gathers_expr hlook hs hM known hf henv hrest

end Facts

end Gathers

end Stage

end Factbase
