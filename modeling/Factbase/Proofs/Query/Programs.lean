import Factbase.Proofs.Query.Blocks
import Factbase.Proofs.Query.Typing
import Factbase.Proofs.Store.Sessions

/-!
# Programs do what plans mean

The program of a plan is run against the meaning of the plan: body by
body, and the derived predicates in the order in which they were built. A
run without a limit yields just the values that are meant, in their order,
or fails with the same error (`Plan.run_eq_meaning`,
`Query.program_means_plan`).
-/

namespace Factbase

variable {σ : Type} [FactStore σ] {r : Reading σ}

/-! ## Bodies -/

section Bodies

variable [LawfulFactStore σ] {met : Content → Prop} {log : List Fact} {named : FactId → Prop}
variable {derive : Predicate → Run (List FactId)} {meant : Predicate → Course (List FactId)}

/-- The code of a body yields the values of the body. -/
theorem Body.tracks_compile (h : r.Over met log) (hfree : Collisionless met)
    {bodied : Predicate → Prop} {b : Body} (hb : b.Typed r.target bodied)
    (hnamed : ∀ s ∈ b.stages, s.Names named) (hmemo : Memoizes derive)
    (hserves : ∀ p, bodied p → Serves r derive meant p)
    (hderivable : ∀ p, bodied p → Derivable r (r.Excuse named) meant p) (limit : Option Nat)
    {e : Evaluation} (he : e.world.Good r) :
    Tracks r (fun sink values => sink.Yielded b.outcome limit ∧ sink.values = values)
      (Sink.CutOff b.outcome limit) (b.compile.run r derive limit) (b.meaning r meant) e := by
  have hrep : Represents ⟨r.target, bodied, b.vars⟩ 0 (liveBetween b.vars.length [] b.stages)
      [fun _ => .unit] [.empty] := by
    refine ⟨?_, ?_, List.forall_mem_singleton.mpr (.empty _)⟩
    · rw [liveBetween_nil]
      rfl
    · exact List.forall_mem_singleton.mpr fun _ _ _ => rfl
  refine (tracks_blocks h hfree rfl hmemo hserves hderivable hb hnamed .nil (Nat.le_refl _) hrep
    he).mapCourse fun sink values hsink => ?_
  rw [eraseDups_eq_gather]
  exact hsink

end Bodies

/-! ## Derived facts -/

section Derived

variable {codes : SortedMap Predicate Code} {fuel : Nat} {p : Predicate} {e : Evaluation}

theorem deriveFacts_of_known {ids : List FactId} (h : e.derived.get? p = some ids) :
    (deriveFacts r codes fuel p).run e = .ok (ids, e) := by
  unfold deriveFacts
  rw [StateT.run_bind, StateT.run_get, pure_bind]
  dsimp only
  rw [h]
  rfl

theorem deriveFacts_of_incomplete (h : e.derived.get? p = none)
    (hstate : FactStore.state r.store ≠ .complete) :
    (deriveFacts r codes fuel p).run e = .error (.incomplete (.derivation p)) := by
  unfold deriveFacts
  rw [StateT.run_bind, StateT.run_get, pure_bind]
  dsimp only
  rw [h]
  dsimp only
  rw [if_pos hstate]
  rfl

theorem deriveFacts_of_code (h : e.derived.get? p = none)
    (hstate : FactStore.state r.store = .complete) {code : Code} (hcode : codes.get? p = some code) :
    (deriveFacts r codes (fuel + 1) p).run e = StateT.run (do
      let sink ← code.run r (deriveFacts r codes fuel) none
      let ids ← sink.values.mapM (addDerived p)
      modify fun e => { e with derived := e.derived.insert p ids }
      return ids) e := by
  conv_lhs => unfold deriveFacts
  rw [StateT.run_bind, StateT.run_get, pure_bind]
  dsimp only
  rw [h]
  dsimp only
  rw [if_neg (not_not_intro hstate), hcode]

theorem deriveFacts_ne_ok (h : e.derived.get? p = none) (hcode : codes.get? p = none ∨ fuel = 0)
    {res : List FactId × Evaluation} : (deriveFacts r codes fuel p).run e ≠ .ok res := by
  by_cases hstate : FactStore.state r.store = .complete
  · have hrun : (deriveFacts r codes fuel p).run e = .error (.type (.noDerivation p)) := by
      unfold deriveFacts
      rw [StateT.run_bind, StateT.run_get, pure_bind]
      dsimp only
      rw [h]
      dsimp only
      rw [if_neg (not_not_intro hstate)]
      rcases hcode with hcode | rfl
      · rw [hcode]
        rfl
      · cases codes.get? p <;> rfl
    rw [hrun]
    exact fun heq => nomatch heq
  · rw [deriveFacts_of_incomplete h hstate]
    exact fun heq => nomatch heq

/-- Facts of a derived predicate are known, or its code is run for them. -/
theorem deriveFacts_cases {ids : List FactId} {e' : Evaluation}
    (h : (deriveFacts r codes fuel p).run e = .ok (ids, e')) :
    e.derived.get? p = some ids ∧ e' = e ∨
      e.derived.get? p = none ∧ ∃ (n : Nat) (code : Code) (sink : Sink) (e₁ e₂ : Evaluation),
        fuel = n + 1 ∧ (code.run r (deriveFacts r codes n) none).run e = .ok (sink, e₁) ∧
        (sink.values.mapM (addDerived p)).run e₁ = .ok (ids, e₂) ∧
        e' = { e₂ with derived := e₂.derived.insert p ids } := by
  cases hmemo : e.derived.get? p with
  | some ids' =>
      rw [deriveFacts_of_known hmemo] at h
      cases h
      exact .inl ⟨rfl, rfl⟩
  | none =>
      by_cases hstate : FactStore.state r.store = .complete
      · cases hcode : codes.get? p with
        | none => exact absurd h (deriveFacts_ne_ok hmemo (.inl hcode))
        | some code =>
            cases fuel with
            | zero => exact absurd h (deriveFacts_ne_ok hmemo (.inr rfl))
            | succ fuel =>
                rw [deriveFacts_of_code hmemo hstate hcode] at h
                obtain ⟨sink, e₁, hrun, h⟩ := Outcome.stateT_bind_ok_iff.mp h
                obtain ⟨ids', e₂, hids, h⟩ := Outcome.stateT_bind_ok_iff.mp h
                cases h
                exact .inr ⟨rfl, fuel, code, sink, e₁, e₂, rfl, hrun, hids, rfl⟩
      · rw [deriveFacts_of_incomplete hmemo hstate] at h
        cases h

/-- Facts of derived predicates are computed once. -/
theorem memoizes_deriveFacts : Memoizes (deriveFacts r codes fuel) where
  reused p e ids h := deriveFacts_of_known h
  kept p e ids e' h := by
    obtain ⟨hmemo, rfl⟩ | ⟨-, _, _, _, _, _, -, -, -, rfl⟩ := deriveFacts_cases h
    · exact hmemo
    · exact SortedMap.get?_insert_self _ _ _

variable {d : Definition}

/-- A fact is made up as it is meant, while there is an id for it. -/
theorem tracks_addDerived (he : e.world.Good r) (hp : r.target.get? p = some d)
    (hunit : d.value = .unit) {key : Value} (hkey : d.key.Conforms key) :
    Tracks r Eq (fun _ => False) (addDerived p key) (World.derive p key) e := by
  have hyields := World.derive_yields (E := fun _ => True) he hp hunit hkey
  unfold Tracks Course.Yields at *
  by_cases hnext : e.next.next = e.next
  · have hrun : (World.derive p key).run e.world = .error .outOfIds := if_pos hnext
    rw [hrun]
    trivial
  · have hrun : (World.derive p key).run e.world = .ok (e.next, { e.world with
        next := e.next.next
        overlay := e.overlay.insert e.next ⟨e.next, p, key, .unit⟩ }) := if_neg hnext
    rw [hrun] at hyields ⊢
    exact ⟨e.next, _, rfl, hyields.1, .inl ⟨rfl, rfl⟩⟩

theorem tracks_addAllDerived (he : e.world.Good r) (hp : r.target.get? p = some d)
    (hunit : d.value = .unit) {keys : List Value} (hkeys : ∀ key ∈ keys, d.key.Conforms key) :
    Tracks r Eq (fun _ => False) (keys.mapM (addDerived p)) (keys.mapM (World.derive p)) e := by
  induction keys generalizing e with
  | nil => exact .done he rfl
  | cons key keys ih =>
      obtain ⟨hkey, hkeys⟩ := List.forall_mem_cons.mp hkeys
      rw [List.mapM_cons, List.mapM_cons]
      refine (tracks_addDerived he hp hunit hkey).andThen fun id id' e₁ _ he₁ hid => ?_
      refine (ih he₁ hkeys).andThen fun ids ids' e₂ _ he₂ hids => ?_
      exact .done he₂ (by rw [hid, hids])

variable [LawfulFactStore σ] {met : Content → Prop} {log : List Fact} {named : FactId → Prop}
variable {bodies : Bodies}

/-- The facts of a derived predicate are computed as they are meant, where those that its
body uses are. -/
theorem serves_step (h : r.Over met log) (hfree : Collisionless met) {bodied : Predicate → Prop}
    {b : Body} (hd : r.target.get? p = some d) (hderived : d.isDerived = true)
    (hget : SortedMap.get? bodies p = some b) (hb : b.Typed r.target bodied)
    (hout : b.outcome = .ofTy d.key) (hnamed : ∀ s ∈ b.stages, s.Names named)
    (hcode : codes.get? p = some b.compile)
    (hserves : ∀ q, bodied q → Serves r (deriveFacts r codes fuel) (bodies.derive r fuel) q)
    (hderivable : ∀ q, bodied q → Derivable r (r.Excuse named) (bodies.derive r fuel) q) :
    Serves r (deriveFacts r codes (fuel + 1)) (bodies.derive r (fuel + 1)) p := by
  intro e he
  cases hmemo : e.derived.get? p with
  | some ids =>
      have hdone : Tracks r Eq (fun _ => False) (pure ids) (pure ids) e := .done he rfl
      exact hdone.of_run (deriveFacts_of_known hmemo) (Bodies.derive_of_known hmemo)
  | none =>
      by_cases hstate : FactStore.state r.store = .complete
      · have hbody := Body.tracks_compile h hfree hb hnamed memoizes_deriveFacts hserves hderivable
          none he
        have hyields := Body.meaning_yields h hb hnamed hderivable he
        have hrun : Tracks r Eq (fun _ => False) (do
              let sink ← b.compile.run r (deriveFacts r codes fuel) none
              let ids ← sink.values.mapM (addDerived p)
              modify fun e => { e with derived := e.derived.insert p ids }
              return ids)
            (do
              let keys ← b.meaning r (bodies.derive r fuel)
              let ids ← keys.mapM (World.derive p)
              modify fun w => { w with derived := w.derived.insert p ids }
              return ids) e := by
          -- a run without a limit is not cut off
          have huncut := hbody.uncut fun sink hcut => by
            cases hcut.1.full hcut.2
          refine huncut.andThen_yields hyields fun sink keys e₁ he₁ hsink hkeys => ?_
          obtain ⟨-, rfl⟩ := hsink
          have hunit := h.coherent.derived_unit hd hderived
          have hfit : ∀ key ∈ sink.values, d.key.Conforms key := fun key hkey =>
            Outcome.conforms_of_holds (hout ▸ hkeys key hkey)
          have hnew := World.deriveAll_yields (E := fun _ => True) he₁ hd hunit hfit
          refine (tracks_addAllDerived he₁ hd hunit hfit).andThen_yields hnew
            fun ids ids' e₂ he₂ heq hids => ?_
          subst heq
          exact ⟨ids, _, rfl, he₂.memoize hids.1, .inl ⟨rfl, rfl⟩⟩
        exact hrun.of_run (deriveFacts_of_code hmemo hstate hcode)
          (Bodies.derive_of_body hmemo hstate hget)
      · unfold Tracks
        rw [Bodies.derive_of_incomplete hmemo hstate]
        exact .inl (deriveFacts_of_incomplete hmemo hstate)

/-- The facts of all derived predicates that were built are computed as they are meant. -/
theorem serves_built (h : r.Over met log) (hfree : Collisionless met)
    (hbuilt : Bodies.Built r.target bodies)
    (hnamed : ∀ p b, SortedMap.get? bodies p = some b → ∀ s ∈ b.stages, s.Names named) :
    ∀ p, bodies.contains p = true →
      Serves r (deriveFacts r (bodies.map fun _ b => b.compile) bodies.size)
        (bodies.derive r bodies.size) p := by
  have hboth := Bodies.Built.induct (motive := fun fuel p =>
      Serves r (deriveFacts r (bodies.map fun _ b => b.compile) fuel) (bodies.derive r fuel) p ∧
      Derivable r (r.Excuse named) (bodies.derive r fuel) p)
    (fun fuel bodied p d b hd hderived hget hb hout ih => ?_) hbuilt (fun _ _ hp => hp) bodies.size
    (Nat.le_refl _)
  · exact fun p hp => (hboth p hp).1
  · have hcode : (bodies.map fun _ b => b.compile).get? p = some b.compile := by
      rw [SortedMap.get?_map, hget]
      rfl
    exact ⟨serves_step h hfree hd hderived hget hb hout (hnamed p b hget) hcode
        (fun q hq => (ih q hq).1) (fun q hq => (ih q hq).2),
      Bodies.derive_step h hd hderived hget hb hout (hnamed p b hget) fun q hq => (ih q hq).2⟩

end Derived

/-! ## Programs -/

/-- The derived facts there are before a run: none. -/
def World.start (r : Reading σ) : World := ⟨∅, ∅, FactStore.nextId r.store⟩

theorem World.start_good : (World.start r).Good r where
  facts _ _ hf := nomatch hf
  ids _ _ hf := nomatch hf
  next := UInt64.le_refl _
  memo _ _ hids := nomatch hids

section Programs

variable [LawfulFactStore σ] {met : Content → Prop} {log : List Fact} {named : FactId → Prop}

/-- The facts that a plan names. -/
def Plan.Names (p : Plan) (named : FactId → Prop) : Prop :=
  (∀ s ∈ p.main.stages, s.Names named) ∧
  ∀ q b, p.derived.get? q = some b → ∀ s ∈ b.stages, s.Names named

/-- The program of a plan yields the values of the plan. -/
theorem Plan.tracks_compile (h : r.Over met log) (hfree : Collisionless met) {p : Plan}
    (hp : p.Typed r.target) (hnamed : p.Names named) (limit : Option Nat) {e : Evaluation}
    (he : e.world.Good r) :
    Tracks r (fun sink values => sink.Yielded p.main.outcome limit ∧ sink.values = values)
      (Sink.CutOff p.main.outcome limit) (p.compile.run r limit) (p.values r) e := by
  have hsize : (p.derived.map fun _ b => b.compile).size = p.derived.size := List.length_map ..
  have hserves := serves_built h hfree hp.derived hnamed.2
  have hderivable := Bodies.derive_yields h hp.derived hnamed.2
  have hmain := Body.tracks_compile h hfree hp.main hnamed.1 memoizes_deriveFacts hserves hderivable
    limit he
  rw [Program.run]
  show Tracks r _ _ (p.main.compile.run r (deriveFacts r (p.derived.map fun _ b => b.compile)
    (p.derived.map fun _ b => b.compile).size) limit) _ e
  rw [hsize]
  exact hmain

/-- Without a limit a program yields what its plan means, or fails as the plan does. -/
theorem Plan.run_eq_meaning (h : r.Over met log) (hfree : Collisionless met) {p : Plan}
    (hp : p.Typed r.target) {result : Except Error (List Value)} (hresult : p.meaning? r = some result)
    (profile : Option Profile) :
    (fun out => out.1.values) <$>
      (p.compile.run r none).run ⟨∅, ∅, FactStore.nextId r.store, 0, profile⟩ = result := by
  have hnamed : p.Names fun _ => True := ⟨fun _ _ _ _ => trivial, fun _ _ _ _ _ _ _ => trivial⟩
  let start : Evaluation := ⟨∅, ∅, FactStore.nextId r.store, 0, profile⟩
  have htracks := p.tracks_compile h hfree hp hnamed none (e := start) World.start_good
  unfold Tracks at htracks
  unfold Plan.meaning? at hresult
  cases hrun : (p.values r).run start.world with
  | error x =>
      rw [hrun] at htracks
      cases x with
      | outOfIds =>
          rw [show p.values r ⟨∅, ∅, FactStore.nextId r.store⟩ = _ from hrun] at hresult
          cases hresult
      | failed x =>
          rw [show p.values r ⟨∅, ∅, FactStore.nextId r.store⟩ = _ from hrun] at hresult
          cases hresult
          rcases htracks with hfail | ⟨sink, e', -, -, hcut⟩
          · rw [hfail]
            rfl
          · cases hcut.1.full hcut.2
  | ok res =>
      obtain ⟨values, w⟩ := res
      rw [hrun] at htracks
      rw [show p.values r ⟨∅, ∅, FactStore.nextId r.store⟩ = _ from hrun] at hresult
      cases hresult
      obtain ⟨sink, e', hdone, -, ⟨-, hvalues⟩ | hcut⟩ := htracks
      · rw [hdone]
        exact congrArg Except.ok hvalues.2
      · cases hcut.1.full hcut.2

end Programs

/-! ## Queries -/

section Queries

variable [LawfulFactStore σ]

/-- A query reads a store that operations led to, all of whose facts fit the schema they are
stored under. -/
theorem StoreSession.reading_over (met : Content → Prop) (hfree : Collisionless met)
    (hkeeps : ∀ c, met c → LawfulFactStore.Keeps σ c) (ops : List StoreOp)
    (hmet : ∀ op ∈ ops, ∀ c ∈ op.content?, met c)
    (hroom : FactStore.size ((new : StoreSession σ).run ops).store < 2 ^ 64 - 1024)
    {stored target : Schema}
    (hfits : ∀ f ∈ FactStore.committed ((new : StoreSession σ).run ops).store, stored.Fits f)
    (htarget : target.Registered) (hnarrow : target.Narrow) {mode : SchemaMode}
    (hmode : mode = .stored → target = stored) :
    Reading.Over met ⟨((new : StoreSession σ).run ops).store, stored, target, mode⟩
      (FactStore.committed ((new : StoreSession σ).run ops).store) := by
  obtain ⟨log, hgood⟩ := good_run Good.new hfree hkeeps ops hmet hroom
  rw [List.nil_append] at hgood
  have hlen : log.length < 2 ^ 64 - 1024 := by
    have := LawfulFactStore.size_eq hgood.holds
    omega
  rw [committed_eq hgood.holds hlen] at hfits ⊢
  exact ⟨hgood.holds, hgood.sound, hlen, hfits, htarget.coherent, hnarrow, hmode⟩

/-- For every query that can be typed, in both modes and over every store: running its program
without a limit gives the values that the plan means, in the same order, or fails with the
same error. -/
theorem Query.program_means_plan (met : Content → Prop) (hfree : Collisionless met)
    (hkeeps : ∀ c, met c → LawfulFactStore.Keeps σ c) (ops : List StoreOp)
    (hmet : ∀ op ∈ ops, ∀ c ∈ op.content?, met c)
    (hroom : FactStore.size ((.new : StoreSession σ).run ops).store < 2 ^ 64 - 1024)
    {stored target : Schema}
    (hfits : ∀ f ∈ FactStore.committed ((.new : StoreSession σ).run ops).store, stored.Fits f)
    (htarget : target.Registered) (hnarrow : target.Narrow) {mode : SchemaMode}
    (hmode : mode = .stored → target = stored) {q : Query} {plan : Plan}
    (hplan : q.typed target = .ok plan) (profile : Option Profile)
    {result : Except Error (List Value)}
    (hresult : plan.meaning? ⟨((.new : StoreSession σ).run ops).store, stored, target, mode⟩ =
      some result) :
    (fun out => out.1.values) <$>
      (plan.compile.run ⟨((.new : StoreSession σ).run ops).store, stored, target, mode⟩ none).run
        ⟨∅, ∅, FactStore.nextId ((.new : StoreSession σ).run ops).store, 0, profile⟩ = result := by
  have hover := StoreSession.reading_over met hfree hkeeps ops hmet hroom hfits htarget hnarrow hmode
  exact plan.run_eq_meaning hover hfree (q.typed_sound htarget.coherent hnarrow hplan) hresult profile

end Queries

/-! ## A family -/

/-- Persons, their parents, and the persons that are parents, which are derived. -/
def familyDecl : SchemaDecl where
  name := "family"
  version := 1
  inherits := []
  imports := []
  items :=
    [.predicate "Person" .string none none,
      .predicate "Parent" (.record [⟨"child", .named "Person", none⟩, ⟨"parent", .named "Person", none⟩])
        none none,
      .predicate "Elder" (.named "Person") none
        (some (.var "P", ⟨[⟨none, .predicate "Parent" none (some (.fields [("parent", .var "P")])) none⟩]⟩))]

def familySchema : Schema := (Schema.builtin.register familyDecl).toOption.getD .builtin

theorem familySchema_registered : familySchema.Registered := Schema.Registered.builtin.register_getD _

/-- Ann is a child of Bob. -/
def familyFacts : List StoreOp :=
  [.insert ⟨"family.Person", 1⟩ (.string "Ann") .unit, .insert ⟨"family.Person", 1⟩ (.string "Bob") .unit,
    .insert ⟨"family.Parent", 1⟩ (.record [.fact ⟨1024⟩, .fact ⟨1025⟩]) .unit, .setState .complete]

/-- The child called Ann of an elder. -/
def familyQuery : Query :=
  ⟨[⟨none, .predicate "family.Elder" none (some (.var "E")) none⟩,
    ⟨none, .predicate "family.Parent" none (some (.fields [("child", .var "C"), ("parent", .var "E")])) none⟩,
    ⟨some (.string "Ann"), .expr (.var "C")⟩]⟩

def familyPlan : Plan := (familyQuery.typed familySchema).toOption.getD default

/-- The contents that `familyFacts` brings. -/
def familyMet : List Content := familyFacts.filterMap StoreOp.content?

theorem familyMet_collisionless : Collisionless (· ∈ familyMet) :=
  .of_list (by decide +kernel) (by decide +kernel)

/-- The facts about the family. -/
def familyStore : MemoryStore := ((.new : StoreSession MemoryStore).run familyFacts).store

/-- What is told by evaluation, in one go as the schema is shared: the query has types, and the
facts are as the schema says. -/
theorem family_evaluated :
    (familyQuery.typed familySchema).toOption.isSome = true ∧
    ∀ f ∈ FactStore.committed familyStore, ∃ d ∈ familySchema.predicates.values,
      familySchema.get? f.predicate = some d ∧ d.key.Conforms f.key ∧ d.value.Conforms f.value := by
  decide +kernel

theorem familyQuery_typed : familyQuery.typed familySchema = .ok familyPlan :=
  Outcome.eq_ok_getD family_evaluated.1 _

theorem familyStore_fits : ∀ f ∈ FactStore.committed familyStore, familySchema.Fits f :=
  fun f hf => (family_evaluated.2 f hf).imp fun _ => And.right

theorem Query.program_means_plan_family :
    (fun out => out.1.values) <$>
      (familyPlan.compile.run ⟨familyStore, familySchema, familySchema, .stored⟩ none).run
        ⟨∅, ∅, FactStore.nextId familyStore, 0, none⟩ = .ok [.fact ⟨1024⟩] := by
  have hmeaning : ((familyPlan.meaning?
      ⟨familyStore, familySchema, familySchema, .stored⟩).bind Except.toOption) =
        some [.fact ⟨1024⟩] := by decide +kernel
  obtain ⟨result, hresult, hok⟩ := Option.bind_eq_some_iff.mp hmeaning
  obtain rfl := Outcome.mem_toOption_iff.mp hok
  exact program_means_plan (· ∈ familyMet) familyMet_collisionless (fun _ _ => trivial) familyFacts
    (fun op hop c hc => List.mem_filterMap.mpr ⟨op, hop, hc⟩) (by decide +kernel) familyStore_fits
    familySchema_registered (by unfold Schema.Narrow; decide +kernel) (fun _ => rfl)
    familyQuery_typed none hresult

end Factbase
