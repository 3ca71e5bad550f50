import Factbase.Proofs.Query.Safety

/-!
# Courses of typed plans

What the parts of a typed plan do with the derived facts there are: they
keep the derived facts good and fail only as they may
(`Course.Yields`). Derived predicates use only those that were built
before them, so the depth that is allowed is enough, and no body is ever
missing (`Bodies.derive_yields`).
-/

namespace Factbase

variable {σ : Type} [FactStore σ] {r : Reading σ} {α β : Type}

/-! ## Courses that keep derived facts good -/

/-- From a world, a course fails as `E` says, or runs out of ids, or leads to a good world and
gives what satisfies `P` there. -/
def Course.Yields (r : Reading σ) (E : Error → Prop) (P : α → World → Prop) (s : Course α)
    (w : World) : Prop :=
  match s.run w with
  | .ok (a, w') => w'.Good r ∧ P a w'
  | .error (.failed x) => E x
  | .error .outOfIds => True

namespace Course.Yields

variable {E : Error → Prop} {P : α → World → Prop} {Q : β → World → Prop} {w : World}

theorem done {a : α} (hw : w.Good r) (ha : P a w) : Course.Yields r E P (pure a) w := ⟨hw, ha⟩

theorem andThen {s : Course α} {f : α → Course β} (hs : Course.Yields r E P s w)
    (hf : ∀ a w', w'.Good r → P a w' → Course.Yields r E Q (f a) w') :
    Course.Yields r E Q (s >>= f) w := by
  unfold Course.Yields at *
  rw [StateT.run_bind]
  cases hrun : s.run w with
  | error x =>
      rw [hrun] at hs
      cases x with
      | failed e => exact hs
      | outOfIds => trivial
  | ok res =>
      rw [hrun] at hs
      exact hf res.1 res.2 hs.1 hs.2

theorem imp {P' : α → World → Prop} {s : Course α} (hs : Course.Yields r E P s w)
    (himp : ∀ a w', w'.Good r → P a w' → P' a w') : Course.Yields r E P' s w := by
  unfold Course.Yields at *
  cases hrun : s.run w with
  | error x =>
      rw [hrun] at hs
      cases x with
      | failed e => exact hs
      | outOfIds => trivial
  | ok res =>
      rw [hrun] at hs
      exact ⟨hs.1, himp res.1 res.2 hs.1 hs.2⟩

/-- What derives nothing. -/
theorem of {P : α → Prop} {x : Except Error α} (hw : w.Good r) (hx : Factbase.Yields E P x) :
    Course.Yields r E (fun a w' => w' = w ∧ P a) (Course.of x) w := by
  cases x with
  | error e => exact hx
  | ok a => exact ⟨hw, rfl, hx⟩

end Course.Yields

/-! ## New facts -/

/-- All derived facts of one world are there in another. -/
def World.Le (w w' : World) : Prop := ∀ id f, w.overlay.get? id = some f → w'.overlay.get? id = some f

namespace World

variable {E : Error → Prop} {w : World} {p : Predicate} {d : Definition}

/-- The new fact of a derived predicate is one more good fact. -/
theorem derive_yields (hw : w.Good r) (hp : r.target.get? p = some d) (hunit : d.value = .unit)
    {key : Value} (hkey : d.key.Conforms key) :
    Course.Yields r E (fun id w' => (∃ f, w'.overlay.get? id = some f ∧ f.predicate = p) ∧ w.Le w')
      (World.derive p key) w := by
  by_cases hnext : w.next.next = w.next
  · have hrun : (World.derive p key).run w = .error .outOfIds := if_pos hnext
    unfold Course.Yields
    rw [hrun]
    trivial
  have hrun : (World.derive p key).run w = .ok (w.next, { w with
      next := w.next.next
      overlay := w.overlay.insert w.next ⟨w.next, p, key, .unit⟩ }) := if_neg hnext
  have hlt := FactId.lt_next hnext
  have hle : w.Le { w with
      next := w.next.next
      overlay := w.overlay.insert w.next ⟨w.next, p, key, .unit⟩ } := by
    intro id f hf
    have hne : id ≠ w.next := fun heq => absurd (heq ▸ (hw.ids id f hf).2) (UInt64.lt_irrefl _)
    exact (SortedMap.get?_insert_of_ne hne _ _).trans hf
  unfold Course.Yields
  rw [hrun]
  refine ⟨⟨fun id f hf => ?_, fun id f hf => ?_, ?_, fun q ids hq id hid => ?_⟩,
    ⟨_, SortedMap.get?_insert_self _ _ _, rfl⟩, hle⟩
  · rw [SortedMap.get?_insert] at hf
    split at hf
    · rename_i heq
      cases hf
      refine ⟨heq.symm, d, hp, hkey, ?_⟩
      rw [hunit]
      exact Ty.conforms_unit
    · exact hw.facts id f hf
  · rw [SortedMap.get?_insert] at hf
    split at hf
    · rename_i heq
      rw [heq]
      exact ⟨hw.next, hlt⟩
    · obtain ⟨hge, hold⟩ := hw.ids id f hf
      exact ⟨hge, UInt64.lt_trans hold hlt⟩
  · exact UInt64.le_trans hw.next (UInt64.le_of_lt hlt)
  · obtain ⟨f, hf, hfp⟩ := hw.memo q ids hq id hid
    exact ⟨f, hle id f hf, hfp⟩

/-- What was computed for a predicate may be kept. -/
theorem Good.memoize (hw : w.Good r) {ids : List FactId}
    (hids : ∀ id ∈ ids, ∃ f, w.overlay.get? id = some f ∧ f.predicate = p) :
    Good r { w with derived := w.derived.insert p ids } where
  facts := hw.facts
  ids := hw.ids
  next := hw.next
  memo q ids' hq id hid := by
    rw [SortedMap.get?_insert] at hq
    split at hq
    · rename_i heq
      cases hq
      rw [heq]
      exact hids id hid
    · exact hw.memo q ids' hq id hid

/-- New facts for keys one by one. -/
theorem deriveAll_yields (hw : w.Good r) (hp : r.target.get? p = some d) (hunit : d.value = .unit)
    {keys : List Value} (hkeys : ∀ key ∈ keys, d.key.Conforms key) :
    Course.Yields r E
      (fun ids w' => (∀ id ∈ ids, ∃ f, w'.overlay.get? id = some f ∧ f.predicate = p) ∧ w.Le w')
      (keys.mapM (World.derive p)) w := by
  induction keys generalizing w with
  | nil => exact .done hw ⟨fun _ hid => (nomatch hid), fun _ _ hf => hf⟩
  | cons key keys ih =>
      obtain ⟨hkey, hkeys⟩ := List.forall_mem_cons.mp hkeys
      rw [List.mapM_cons]
      refine (derive_yields hw hp hunit hkey).andThen fun id w₁ hw₁ hid => ?_
      obtain ⟨⟨f, hf, hfp⟩, hle⟩ := hid
      refine (ih hw₁ hkeys).andThen fun ids w₂ hw₂ hids => ?_
      obtain ⟨hall, hle'⟩ := hids
      exact .done hw₂
        ⟨List.forall_mem_cons.mpr ⟨⟨f, hle' id f hf, hfp⟩, hall⟩, fun i g hg => hle' i g (hle i g hg)⟩

end World

/-! ## Stages and bodies -/

section Stages

variable {c : PlanContext} {derive : Predicate → Course (List FactId)} {w : World}

/-- The facts of derived predicates can be had, and are kept. -/
def Derivable (r : Reading σ) (E : Error → Prop) (derive : Predicate → Course (List FactId))
    (p : Predicate) : Prop :=
  ∀ w : World, w.Good r →
    Course.Yields r E (fun ids w' => w'.derived.get? p = some ids) (derive p) w

/-- A derived predicate that a stage draws from has a body. -/
theorem Stage.Typed.bodied {s : Stage} {o : Outcome} {k k' : Nat} (hs : s.Typed c o k k')
    (hcoherent : c.schema.Coherent) {p : Predicate} {key value : Match}
    (hsupply : s.supply = .facts p true key value) : c.bodied p := by
  obtain ⟨supply, m⟩ := s
  obtain ⟨j, hs, -⟩ := hs
  subst hsupply
  obtain ⟨-, d, -, hd, husable, hderived, -⟩ := hs
  exact hcoherent.named p d hd ▸ husable hderived.symm

namespace Stage

/-- What is there to draw from, and nothing that was there is lost. -/
theorem known_yields {E : Error → Prop} {s : Stage} {o : Outcome} {k k' : Nat}
    (hs : s.Typed c o k k') (hcoherent : c.schema.Coherent)
    (hderive : ∀ p, c.bodied p → Derivable r E derive p) (hw : w.Good r) :
    Course.Yields r E (fun known w' => s.Known w' known) (s.supply.known derive) w := by
  obtain ⟨supply, m⟩ := s
  cases supply with
  | facts p derived key value =>
      cases derived with
      | true =>
          refine (hderive p (hs.bodied hcoherent rfl) w hw).imp fun ids w' _ hids => ?_
          rintro p' key' value' ⟨⟩
          exact hids
      | false => exact .done hw fun _ _ _ heq => nomatch heq
  | factId n => exact .done hw fun _ _ _ heq => nomatch heq
  | prim function arg => exact .done hw fun _ _ _ heq => nomatch heq
  | expr e => exact .done hw fun _ _ _ heq => nomatch heq

variable [LawfulFactStore σ] {met : Content → Prop} {log : List Fact} {named : FactId → Prop}
variable {o first : Outcome} {k k' : Nat} {envs : List Env}

theorem run_yields (h : r.Over met log) (hc : c.schema = r.target)
    (hderive : ∀ p, c.bodied p → Derivable r (r.Excuse named) derive p) {s : Stage}
    (hs : s.Typed c o k k') (hnamed : s.Names named) (henvs : ∀ env ∈ envs, env.Typed c k)
    (hw : w.Good r) :
    Course.Yields r (r.Excuse named)
      (fun kept _ => ∀ res ∈ kept, o.Holds res.1 ∧ res.2.Typed c k') (s.run r derive envs) w := by
  unfold Stage.run
  split
  · exact .done hw fun _ hres => nomatch hres
  · refine (known_yields hs (hc ▸ h.coherent) hderive hw).andThen fun known w' hw' hknown => ?_
    have hget : Course.Yields r (r.Excuse named) (fun w₁ w₂ => w₁ = w' ∧ w₂ = w') get w' :=
      ⟨hw', rfl, rfl⟩
    refine hget.andThen fun w₁ w₂ _ heq => ?_
    rw [heq.1, heq.2]
    have hkept : Yields (r.Excuse named)
        (fun kept => ∀ l ∈ kept, ∀ res ∈ l, o.Holds res.1 ∧ res.2.Typed c k')
        (envs.mapM (s.kept r w'.overlay known)) :=
      .mapM fun env henv => kept_yields h hw' hc hs hnamed hknown (henvs env henv)
    refine (Course.Yields.of hw' hkept).andThen fun kept w'' hw'' hall => ?_
    refine .done hw'' fun res hres => ?_
    obtain ⟨l, hl, hres⟩ := List.mem_flatten.mp hres
    exact hall.2 l hl res hres

/-- The values that stages give in turn are of the kind of the last of them. -/
theorem runAll_yields (h : r.Over met log) (hc : c.schema = r.target)
    (hderive : ∀ p, c.bodied p → Derivable r (r.Excuse named) derive p) {ss : List Stage}
    (hss : TypedAll c first ss o k k') (hnamed : ∀ s ∈ ss, s.Names named)
    (henvs : ∀ env ∈ envs, env.Typed c k) (hw : w.Good r) :
    Course.Yields r (r.Excuse named) (fun values _ => ∀ v ∈ values, o.Holds v)
      (runAll r derive ss envs) w := by
  induction ss generalizing first k envs w with
  | nil =>
      rw [runAll]
      exact .done hw fun _ hv => absurd hv List.not_mem_nil
  | cons s rest ih =>
      obtain ⟨o', j, hs, hrest⟩ := hss
      obtain ⟨hn, hnrest⟩ := List.forall_mem_cons.mp hnamed
      have hrun := run_yields h hc hderive hs hn henvs hw
      cases rest with
      | nil =>
          obtain ⟨rfl, rfl⟩ := hrest
          rw [runAll]
          refine hrun.andThen fun kept w' hw' hkept => .done hw' ?_
          exact List.forall_mem_map.mpr fun res hres => (hkept res hres).1
      | cons s' rest =>
          rw [runAll]
          · refine hrun.andThen fun kept w' hw' hkept => ih hrest hnrest ?_ hw'
            exact List.forall_mem_map.mpr fun res hres => (hkept res hres).2
          · intro heq
            cases heq

end Stage

theorem Env.Typed.empty (c : PlanContext) : Env.Typed c 0 .empty :=
  ⟨fun _ hv => absurd hv (Nat.not_lt_zero _), fun _ _ => rfl⟩

/-- The values of a body are of its kind. -/
theorem Body.meaning_yields [LawfulFactStore σ] {met : Content → Prop} {log : List Fact}
    {named : FactId → Prop} (h : r.Over met log) {bodied : Predicate → Prop} {b : Body}
    (hb : b.Typed r.target bodied) (hnamed : ∀ s ∈ b.stages, s.Names named)
    (hderive : ∀ p, bodied p → Derivable r (r.Excuse named) derive p) (hw : w.Good r) :
    Course.Yields r (r.Excuse named) (fun values _ => ∀ v ∈ values, b.outcome.Holds v)
      (b.meaning r derive) w := by
  have henvs : ∀ env ∈ [Env.empty], Env.Typed ⟨r.target, bodied, b.vars⟩ 0 env :=
    List.forall_mem_singleton.mpr (.empty _)
  refine (Stage.runAll_yields h rfl hderive hb hnamed henvs hw).andThen fun values w' hw' hall => ?_
  refine .done hw' fun v hv => hall v ?_
  rw [eraseDups_eq_gather, mem_gather] at hv
  exact hv.resolve_left List.not_mem_nil

end Stages

/-! ## Derived predicates -/

/-- Facts of a derived predicate have no value. -/
theorem Schema.Coherent.derived_unit {s : Schema} (h : s.Coherent) {p : Predicate} {d : Definition}
    (hd : s.get? p = some d) (hderived : d.isDerived = true) : d.value = .unit := by
  obtain ⟨body, hbody⟩ := Option.isSome_iff_exists.mp hderived
  exact h.derived p d body hd hbody

namespace Bodies

variable {bodies : Bodies} {fuel : Nat} {p : Predicate} {w : World}

theorem derive_of_known {ids : List FactId} (h : w.derived.get? p = some ids) :
    (bodies.derive r fuel p).run w = .ok (ids, w) := by
  unfold derive
  rw [StateT.run_bind, StateT.run_get, pure_bind]
  dsimp only
  rw [h]
  rfl

theorem derive_of_incomplete (h : w.derived.get? p = none) (hstate : FactStore.state r.store ≠ .complete) :
    (bodies.derive r fuel p).run w = .error (.failed (.incomplete (.derivation p))) := by
  unfold derive
  rw [StateT.run_bind, StateT.run_get, pure_bind]
  dsimp only
  rw [h]
  dsimp only
  rw [if_pos hstate]
  rfl

/-- Facts that are not there yet are computed. -/
theorem derive_of_body (h : w.derived.get? p = none) (hstate : FactStore.state r.store = .complete)
    {b : Body} (hb : SortedMap.get? bodies p = some b) :
    (bodies.derive r (fuel + 1) p).run w = StateT.run (do
      let keys ← b.meaning r (bodies.derive r fuel)
      let ids ← keys.mapM (World.derive p)
      modify fun w => { w with derived := w.derived.insert p ids }
      return ids) w := by
  unfold derive
  rw [StateT.run_bind, StateT.run_get, pure_bind]
  dsimp only
  rw [h]
  dsimp only
  rw [if_neg (not_not_intro hstate), hb]

/-- What holds of a derived predicate, at a depth, if it holds of all that its body uses, at
one less, holds of all that were built, at a depth of their number. -/
theorem Built.induct {s : Schema} {all : Bodies} {motive : Nat → Predicate → Prop}
    (step : ∀ fuel (bodied : Predicate → Prop) p d b, s.get? p = some d → d.isDerived = true →
      SortedMap.get? all p = some b → b.Typed s bodied → b.outcome = .ofTy d.key →
      (∀ q, bodied q → motive fuel q) → motive (fuel + 1) p)
    (hbuilt : Built s bodies)
    (hall : ∀ p b, SortedMap.get? bodies p = some b → SortedMap.get? all p = some b) :
    ∀ fuel, bodies.size ≤ fuel → ∀ p, bodies.contains p = true → motive fuel p := by
  induction hbuilt with
  | empty =>
      intro fuel _ p hp
      obtain ⟨b, hb⟩ := SortedMap.contains_iff.mp hp
      exact nomatch hb
  | @insert bodies p d b hbuilt hd hderived hnew hb hout hne ih =>
      have hold : ∀ q b', SortedMap.get? bodies q = some b' → SortedMap.get? all q = some b' := by
        intro q b' hq
        have hqp : q ≠ p := fun heq => nomatch (heq ▸ hq).symm.trans hnew
        exact hall q b' ((SortedMap.get?_insert_of_ne hqp _ _).trans hq)
      intro fuel hfuel q hq
      rw [SortedMap.size_insert_of_get?_none hnew] at hfuel
      by_cases hqp : q = p
      · subst hqp
        obtain ⟨fuel, rfl⟩ : ∃ n, fuel = n + 1 := ⟨fuel - 1, by omega⟩
        exact step fuel _ q d b hd hderived (hall q b (SortedMap.get?_insert_self _ _ _)) hb hout
          (ih hold fuel (by omega))
      · obtain ⟨b', hb'⟩ := SortedMap.contains_iff.mp hq
        rw [SortedMap.get?_insert_of_ne hqp] at hb'
        exact ih hold fuel (by omega) q (SortedMap.contains_iff.mpr ⟨b', hb'⟩)

variable [LawfulFactStore σ] {met : Content → Prop} {log : List Fact} {named : FactId → Prop}

/-- The facts of a derived predicate can be had where those that its body uses can be. -/
theorem derive_step (h : r.Over met log) {bodied : Predicate → Prop} {d : Definition} {b : Body}
    (hd : r.target.get? p = some d) (hderived : d.isDerived = true)
    (hget : SortedMap.get? bodies p = some b) (hb : b.Typed r.target bodied)
    (hout : b.outcome = .ofTy d.key) (hnamed : ∀ s ∈ b.stages, s.Names named)
    (hused : ∀ q, bodied q → Derivable r (r.Excuse named) (bodies.derive r fuel) q) :
    Derivable r (r.Excuse named) (bodies.derive r (fuel + 1)) p := by
  intro w hw
  cases hmemo : w.derived.get? p with
  | some ids =>
      unfold Course.Yields
      rw [derive_of_known hmemo]
      exact ⟨hw, hmemo⟩
  | none =>
      by_cases hstate : FactStore.state r.store = .complete
      · have hrun : Course.Yields r (r.Excuse named) (fun ids w' => w'.derived.get? p = some ids) (do
            let keys ← b.meaning r (bodies.derive r fuel)
            let ids ← keys.mapM (World.derive p)
            modify fun w => { w with derived := w.derived.insert p ids }
            return ids) w := by
          refine (Body.meaning_yields h hb hnamed hused hw).andThen fun keys w₁ hw₁ hkeys => ?_
          have hunit := h.coherent.derived_unit hd hderived
          refine (World.deriveAll_yields hw₁ hd hunit fun key hkey =>
            Outcome.conforms_of_holds (hout ▸ hkeys key hkey)).andThen fun ids w₂ hw₂ hids => ?_
          exact ⟨hw₂.memoize hids.1, SortedMap.get?_insert_self _ _ _⟩
        unfold Course.Yields at *
        rwa [derive_of_body hmemo hstate hget]
      · unfold Course.Yields
        rw [derive_of_incomplete hmemo hstate]
        exact .incomplete hd hderived hstate

/-- The facts of the derived predicates that were built can be had, unless the store is not
complete. -/
theorem derive_yields (h : r.Over met log) (hbuilt : Built r.target bodies)
    (hnamed : ∀ p b, SortedMap.get? bodies p = some b → ∀ s ∈ b.stages, s.Names named) :
    ∀ p, bodies.contains p = true →
      Derivable r (r.Excuse named) (bodies.derive r bodies.size) p :=
  Built.induct (motive := fun fuel p => Derivable r (r.Excuse named) (bodies.derive r fuel) p)
    (fun _ _ p _ b hd hderived hget hb hout ih =>
      derive_step h hd hderived hget hb hout (hnamed p b hget) ih)
    hbuilt (fun _ _ h => h) bodies.size (Nat.le_refl _)

end Bodies

end Factbase
