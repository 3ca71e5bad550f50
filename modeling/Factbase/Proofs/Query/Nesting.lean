import Factbase.Proofs.Query.Derivations

/-!
# The limit on nesting

A derived predicate has at most one body that typing can find for it,
whichever bodies are known by then (`Definition.HasBody`). So with more
bodies known, typing does the same, and enters less: what is accepted
stays accepted (`deriveWithin_more`), and a derived predicate that may be
queried by itself may be queried after whatever else (`Query.nesting_limited`).

The converse fails. Of a chain that is longer than the limit, the last part
is accepted by itself, and the first predicate once that part is known.
-/

namespace Factbase

open Bodies

namespace TypingContext

variable {c : TypingContext}

/-! ## Typing with other bodies -/

/-- With other bodies a step gives the same, and leaves bodies that are related again. -/
def Repeats (R : Bodies → Bodies → Prop) {α : Type} (x x' : Check α) : Prop :=
  ∀ t bodies a t₁, R t.bodies bodies → x t = .ok (a, t₁) →
    ∃ bodies₁, x' { t with bodies } = .ok (a, { t₁ with bodies := bodies₁ }) ∧ R t₁.bodies bodies₁

/-- Entering predicates repeats what it does in a context, with other bodies and in another way. -/
def EntersAlike (R : Bodies → Bodies → Prop) (c : TypingContext)
    (derive : Definition → Bodies → Except Error Bodies) : Prop :=
  ∀ d bodies bodies' bodies₁, c.schema.get? d.predicate = some d → R bodies bodies' →
    c.derive d bodies = .ok bodies₁ → ∃ bodies₁', derive d bodies' = .ok bodies₁' ∧ R bodies₁ bodies₁'

variable {R : Bodies → Bodies → Prop} {derive : Definition → Bodies → Except Error Bodies}

theorem EntersAlike.enter (h : EntersAlike R c derive) {d : Definition}
    (hd : c.schema.get? d.predicate = some d) :
    Repeats R (c.enter d) (TypingContext.enter { c with derive } d) := by
  intro t bodies u t₁ hR henter
  obtain ⟨bodies₁, hderive, rfl⟩ := enter_ok_iff.mp henter
  obtain ⟨bodies₁', hderive', hR'⟩ := h d t.bodies bodies bodies₁ hd hR hderive
  exact ⟨bodies₁', enter_ok_iff.mpr ⟨bodies₁', hderive', rfl⟩, hR'⟩

theorem EntersAlike.follow (hs : c.schema.Coherent) (h : EntersAlike R c derive) (fuel : Nat) (ty : Ty) :
    Repeats R (c.follow fuel ty) (TypingContext.follow { c with derive } fuel ty) := by
  induction fuel generalizing ty with
  | zero =>
      intro t bodies r t₁ hR hfollow
      obtain ⟨hne, hps, hty, rfl⟩ | ⟨_, _, _, _, _, _, -, -, hfuel, -⟩ := follow_cases hfollow
      · rw [follow_other hne]
        exact ⟨bodies, by rw [show r = ([], ty) from Prod.ext hps hty]; rfl, hR⟩
      · cases hfuel
  | succ fuel ih =>
      intro t bodies r t₁ hR hfollow
      obtain ⟨ps, ty'⟩ := r
      obtain ⟨hne, rfl, rfl, rfl⟩ | ⟨p, d, n, qs, u, t₂, rfl, hd, hfuel, rfl, henter, hrest⟩ :=
        follow_cases hfollow
      · rw [follow_other hne]
        exact ⟨bodies, rfl, hR⟩
      · cases hfuel
        obtain ⟨bodies₂, henter', hR₂⟩ :=
          h.enter (by rwa [hs.named p d hd]) t bodies u t₂ hR henter
        obtain ⟨bodies₁, hrest', hR₁⟩ := ih d.key t₂ bodies₂ (qs, ty') t₁ hR₂ hrest
        refine ⟨bodies₁, ?_, hR₁⟩
        rw [TypingContext.follow]
        simp only [hd]
        exact Outcome.stateT_bind_ok_iff.mpr ⟨u, _, henter',
          Outcome.stateT_bind_ok_iff.mpr ⟨(qs, ty'), _, hrest', rfl⟩⟩

/-- Typing repeats what it does, where entering does. -/
theorem EntersAlike.related (hs : c.schema.Coherent) (h : EntersAlike R c derive) :
    Related (Repeats R) c derive where
  plain := by
    intro α x hx t bodies a t₁ hR hrun
    refine ⟨bodies, ?_, hx.bodies hrun ▸ hR⟩
    rw [hx.natural, hrun]
    rfl
  bind := by
    intro α β x x' k k' hx hk t bodies b t₁ hR hrun
    obtain ⟨a, t₂, ha, hb⟩ := Outcome.stateT_bind_ok_iff.mp hrun
    obtain ⟨bodies₂, ha', hR₂⟩ := hx t bodies a t₂ hR ha
    obtain ⟨bodies₁, hb', hR₁⟩ := hk a t₂ bodies₂ b t₁ hR₂ hb
    exact ⟨bodies₁, Outcome.stateT_bind_ok_iff.mpr ⟨a, _, ha', hb'⟩, hR₁⟩
  get := by
    intro α k k' hk hk' h t bodies a t₁ hR hrun
    obtain ⟨bodies₁, ha, hR₁⟩ := h t t bodies a t₁ hR hrun
    refine ⟨bodies₁, ?_, hR₁⟩
    show k' { t with bodies } { t with bodies } = _
    rw [hk']
    exact ha
  enter d hd := h.enter hd
  follow ty := h.follow hs _ ty

theorem EntersAlike.body (hs : c.schema.Coherent) (h : EntersAlike R c derive) {q : Query}
    {head : Option (Pattern × Ty)} {bodies bodies' bodies₁ : Bodies} {b : Body} (hR : R bodies bodies')
    (hb : c.body q head bodies = .ok (b, bodies₁)) :
    ∃ bodies₁', TypingContext.body { c with derive } q head bodies' = .ok (b, bodies₁') ∧
      R bodies₁ bodies₁' := by
  have hlift := h.related hs
  unfold TypingContext.body at hb
  dsimp only at hb
  obtain ⟨⟨⟨stages, o⟩, t⟩, hrun, hout⟩ := Outcome.bind_ok_iff.mp hb
  cases hout
  have htyped {k : List Stage × Outcome → Check (List Stage × Outcome)} (hk : ∀ r, (k r).Plain) :=
    hlift.bind (hlift.stages hs head.isSome (.value .unit) q.statements) fun r => hlift.plain (hk r)
  obtain ⟨bodies₁', hrun', hR'⟩ := htyped (fun r => by
    cases head with
    | none => exact .pure _
    | some head => exact (plain_expr head.1 (some head.2)).bind fun _ => .pure _)
    ⟨[], ∅, bodies⟩ bodies' (stages, o) t hR hrun
  refine ⟨bodies₁', ?_, hR'⟩
  unfold TypingContext.body
  dsimp only
  exact Outcome.bind_ok_iff.mpr ⟨_, hrun', rfl⟩

end TypingContext

/-! ## The body of a derived predicate -/

/-- A body that can be typed for a derived predicate, whatever it uses. -/
def Definition.HasBody (s : Schema) (d : Definition) (b : Body) : Prop :=
  ∃ derivation, d.derivation = some derivation ∧
    TypingContext.body ⟨s, derivation.scope, fun _ bodies => .ok bodies⟩ derivation.body
      (some (derivation.key, d.key)) ∅ = .ok (b, ∅)

theorem Definition.HasBody.unique {s : Schema} {d : Definition} {b b' : Body} (h : d.HasBody s b)
    (h' : d.HasBody s b') : b = b' := by
  obtain ⟨derivation, hderivation, hb⟩ := h
  obtain ⟨derivation', hderivation', hb'⟩ := h'
  obtain rfl := Option.some.inj (hderivation.symm.trans hderivation')
  exact congrArg Prod.fst (Except.ok.inj (hb.symm.trans hb'))

namespace Bodies

/-- The bodies are those of their predicates. -/
def Proper (s : Schema) (bodies : Bodies) : Prop :=
  ∀ p b, bodies.get? p = some b → ∃ d, s.get? p = some d ∧ d.HasBody s b

/-- Bodies, and more of them: these are proper, and complete with what they use. -/
structure Within (s : Schema) (bodies bodies' : Bodies) : Prop where
  le : bodies.Le bodies'
  stacked : Stacked s bodies'
  proper : Proper s bodies'

variable {s : Schema} {bodies bodies' bodies₁ : Bodies}

theorem Proper.insert {p : Predicate} {d : Definition} {b : Body} (h : Proper s bodies)
    (hd : s.get? p = some d) (hb : d.HasBody s b) : Proper s (SortedMap.insert bodies p b) := by
  intro q b' hb'
  rw [SortedMap.get?_insert] at hb'
  split at hb'
  · rename_i heq
    cases hb'
    exact ⟨d, heq ▸ hd, hb⟩
  · exact h q b' hb'

end Bodies

/-- A body is typed as its predicate has it. -/
theorem Definition.HasBody.of_typed {s : Schema} (hs : s.Coherent) {d : Definition}
    {derivation : Derivation} (hderivation : d.derivation = some derivation)
    {derive : Definition → Bodies → Except Error Bodies} {bodies bodies' : Bodies} {b : Body}
    (h : TypingContext.body ⟨s, derivation.scope, derive⟩ derivation.body
      (some (derivation.key, d.key)) bodies = .ok (b, bodies')) : d.HasBody s b := by
  have halike : TypingContext.EntersAlike (fun _ bodies' => bodies' = ∅)
      ⟨s, derivation.scope, derive⟩ (fun _ bodies => .ok bodies) :=
    fun _ _ bodies' _ _ hempty _ => ⟨bodies', rfl, hempty⟩
  obtain ⟨_, hbody, rfl⟩ := halike.body hs rfl h
  exact ⟨derivation, hderivation, hbody⟩

/-! ## Entering with more bodies known -/

section Entering

variable {s : Schema} {budget : Nat} {entered : List Predicate} {d : Definition}
  {bodies bodies' all : Bodies}

theorem deriveWithin_proper (hs : s.Coherent) (hd : s.get? d.predicate = some d)
    (hproper : Proper s bodies) (h : deriveWithin s budget entered d bodies = .ok bodies') :
    Proper s bodies' := by
  induction budget generalizing entered d bodies bodies' with
  | zero =>
      obtain ⟨-, rfl⟩ | ⟨_, _, _, _, -, -, -, hbudget, -⟩ := deriveWithin_cases h
      · exact hproper
      · cases hbudget
  | succ budget ih =>
      obtain ⟨-, rfl⟩ | ⟨n, derivation, b, bodies₁, hderivation, -, -, hbudget, hbody, rfl⟩ :=
        deriveWithin_cases h
      · exact hproper
      · cases hbudget
        refine Proper.insert ?_ hd (.of_typed hs hderivation hbody)
        refine (TypingContext.body_enters hs hbody).preserves (fun p _ d' _ _ hd' hderive hI => ?_) hproper
        exact ih (by rwa [hs.named p d' hd']) hI hderive

/-- What is entered anyway adds no other bodies than those that are there. -/
theorem deriveWithin_le (hs : s.Coherent) (hd : s.get? d.predicate = some d)
    (hstacked : Stacked s all) (hproper : Proper s all) (hle : bodies.Le all)
    (hin : d.isDerived = true → all.contains d.predicate = true)
    (h : deriveWithin s budget entered d bodies = .ok bodies') : bodies'.Le all := by
  induction budget generalizing entered d bodies bodies' with
  | zero =>
      obtain ⟨-, rfl⟩ | ⟨_, _, _, _, -, -, -, hbudget, -⟩ := deriveWithin_cases h
      · exact hle
      · cases hbudget
  | succ budget ih =>
      obtain ⟨-, rfl⟩ | ⟨n, derivation, b, bodies₁, hderivation, -, -, hbudget, hbody, rfl⟩ :=
        deriveWithin_cases h
      · exact hle
      · cases hbudget
        obtain ⟨b', hb'⟩ := SortedMap.contains_iff.mp
          (hin (by simp [Definition.isDerived, hderivation]))
        -- the body that is there is the one that was typed
        obtain rfl : b' = b := by
          obtain ⟨d', hd', hhas⟩ := hproper _ _ hb'
          cases hd.symm.trans hd'
          exact hhas.unique (.of_typed hs hderivation hbody)
        have hcover := hstacked.closed hb'
        have hle₁ : bodies₁.Le all := by
          refine (TypingContext.body_enters hs hbody).preserves (I := fun bodies => bodies.Le all)
            (fun p hp d' _ _ hd' hderive hI => ?_) hle
          obtain rfl := hs.named p d' hd'
          exact ih hd' hI (hcover _ hp d' hd') hderive
        intro q b hb
        rw [SortedMap.get?_insert] at hb
        split at hb
        · rename_i heq
          cases hb
          exact heq ▸ hb'
        · exact hle₁ q b hb

theorem deriveWithin_of_known (h : d.isDerived = false ∨ bodies.contains d.predicate = true) :
    deriveWithin s budget entered d bodies = .ok bodies := by
  unfold deriveWithin
  cases hderivation : d.derivation with
  | none => rfl
  | some derivation =>
      have hin : bodies.contains d.predicate = true := by
        simpa [Definition.isDerived, hderivation] using h
      simp only [hin, if_true]

/-- Where a predicate may be entered, it may be entered with more bodies known. -/
theorem deriveWithin_more (hs : s.Coherent) (hd : s.get? d.predicate = some d)
    (hwithin : Within s bodies all) (h : deriveWithin s budget entered d bodies = .ok bodies') :
    ∃ all', deriveWithin s budget entered d all = .ok all' ∧ Within s bodies' all' := by
  induction budget generalizing entered d bodies bodies' all with
  | zero =>
      obtain ⟨hneeds, rfl⟩ | ⟨_, _, _, _, -, -, -, hbudget, -⟩ := deriveWithin_cases h
      · exact ⟨all, deriveWithin_of_known (hneeds.imp_right hwithin.le.contains), hwithin⟩
      · cases hbudget
  | succ budget ih =>
      obtain ⟨hneeds, rfl⟩ | ⟨n, derivation, b, bodies₁, hderivation, hnew, hentered, hbudget, hbody, rfl⟩ :=
        deriveWithin_cases h
      · exact ⟨all, deriveWithin_of_known (hneeds.imp_right hwithin.le.contains), hwithin⟩
      · cases hbudget
        by_cases hin : all.contains d.predicate = true
        · refine ⟨all, deriveWithin_of_known (.inr hin), ?_, hwithin.stacked, hwithin.proper⟩
          exact deriveWithin_le hs hd hwithin.stacked hwithin.proper hwithin.le (fun _ => hin) h
        · have halike : TypingContext.EntersAlike (Within s)
              ⟨s, derivation.scope, deriveWithin s budget (d.predicate :: entered)⟩
              (deriveWithin s budget (d.predicate :: entered)) :=
            fun d' _ _ _ hd' hwithin hderive => ih hd' hwithin hderive
          obtain ⟨all₁, hbody', hwithin₁⟩ := halike.body hs hwithin hbody
          have hderive : deriveWithin s (budget + 1) entered d all =
              .ok (SortedMap.insert all₁ d.predicate b) := by
            unfold deriveWithin
            simp only [hderivation, hin, List.contains_eq_mem, hentered, decide_false]
            exact Outcome.bind_ok_iff.mpr ⟨(b, all₁), hbody', rfl⟩
          refine ⟨_, hderive, fun p x hx => ?_, (deriveWithin_advance hs hd hderive).stacked hwithin.stacked,
            deriveWithin_proper hs hd hwithin.proper hderive⟩
          by_cases heq : p = d.predicate
          · rw [SortedMap.get?_insert, if_pos heq] at hx ⊢
            exact hx
          · rw [SortedMap.get?_insert_of_ne heq] at hx ⊢
            exact hwithin₁.le p x hx

end Entering

/-! ## Queries -/

/-- The supply is a fact by its id; no statement may come after it. -/
def Supply.isFactId : Supply → Bool
  | .factId _ => true
  | _ => false

namespace TypingContext

variable {c : TypingContext} {t t₁ t₂ t' : Typing}

/-- One more statement after others that look up no fact by its id. -/
theorem stages_snoc (st : Statement) {first o o₁ : Outcome} {ss : List Statement}
    {stages : List Stage} {supply : Supply} {bind : Match}
    (h : c.stages false first ss t = .ok ((stages, o), t₁))
    (hids : ∀ stage ∈ stages, stage.supply.isFactId = false)
    (hsupply : c.supply st.source t₁ = .ok ((supply, o₁), t₂))
    (hbind : c.binding st.bind o₁ t₂ = .ok (bind, t')) :
    c.stages false first (ss ++ [st]) t = .ok ((stages ++ [⟨supply, bind⟩], o₁), t') := by
  induction ss generalizing first stages t with
  | nil =>
      obtain ⟨hpair, rfl⟩ := Outcome.stateT_pure_ok_iff.mp h
      cases hpair
      rw [List.nil_append, List.nil_append]
      unfold TypingContext.stages
      refine Outcome.stateT_bind_ok_iff.mpr ⟨_, t₂, hsupply, ?_⟩
      have hlast : (do
          let bind ← c.binding st.bind o₁
          let rest ← c.stages false o₁ []
          return (⟨supply, bind⟩ :: rest.1, rest.2) : Check (List Stage × Outcome)) t₂ =
          .ok (([⟨supply, bind⟩], o₁), t') :=
        Outcome.stateT_bind_ok_iff.mpr ⟨bind, t', hbind, rfl⟩
      dsimp only
      split
      · exact hlast
      · exact hlast
  | cons s ss ih =>
      obtain ⟨supply', o', u₁, bind', u₂, rest, hsupply', hbind', hrest, rfl⟩ := stages_cons h
      obtain ⟨hid, hids⟩ := List.forall_mem_cons.mp hids
      rw [List.cons_append]
      unfold TypingContext.stages
      refine Outcome.stateT_bind_ok_iff.mpr ⟨_, u₁, hsupply', ?_⟩
      dsimp only
      split
      · rename_i n
        cases hid
      · exact Outcome.stateT_bind_ok_iff.mpr ⟨bind', u₂, hbind',
          Outcome.stateT_bind_ok_iff.mpr ⟨_, t', ih hrest hids, rfl⟩⟩

/-- A source that is just a name which can be no variable. -/
theorem supply_name {name : String} {version : Option UInt32}
    (hname : version.isSome = true ∨ isVariable name = false) {r : Supply × Outcome} :
    c.supply (.predicate name version none none) t = .ok (r, t') ↔
      ∃ d, c.resolve name version = .ok d ∧ c.enter d t = .ok ((), t') ∧
        r = (.facts d.predicate d.isDerived .wild .wild, .fact d.predicate) := by
  have hbare : ((none : Option Pattern).isNone && version.isNone && isVariable name) = false := by
    rcases hname with hversion | hvariable
    · cases version
      · cases hversion
      · rfl
    · simp [hvariable]
  unfold supply
  simp only [hbare]
  cases hresolve : c.resolve name version with
  | ok d =>
      show c.facts d none none t = _ ↔ _
      rw [facts_eq]
      constructor
      · intro h
        obtain ⟨u, t₁, henter, hrest⟩ := Outcome.stateT_bind_ok_iff.mp h
        cases hrest
        exact ⟨d, rfl, henter, rfl⟩
      · rintro ⟨d, heq, henter, rfl⟩
        cases heq
        exact Outcome.stateT_bind_ok_iff.mpr ⟨(), t', henter, rfl⟩
  | error e =>
      refine iff_of_false (fun h => ?_) ?_
      · cases e <;> cases h
      · rintro ⟨d, heq, -⟩
        cases heq

end TypingContext

theorem Query.typed_proper {s : Schema} (hs : s.Coherent) {q : Query} {plan : Plan}
    (h : q.typed s = .ok plan) : Proper s plan.derived := by
  refine (TypingContext.body_enters hs (Query.typed_iff.mp h)).preserves (I := Proper s)
    (fun p _ d _ _ hd hderive hI => ?_) fun _ _ h => by cases h
  exact deriveWithin_proper hs (by rwa [hs.named p d hd]) hI hderive

/-- What has got a body is reached from the query by no more bodies than the limit says. And a
derived predicate that may be queried by itself may be queried after any other statements: with
more bodies known, less is entered. -/
theorem Query.nesting_limited {s : Schema} (hs : s.Registered) {ss : List Statement} {plan : Plan}
    (hplan : Query.typed ⟨ss⟩ s = .ok plan) :
    (∀ p, plan.derived.contains p = true → ∃ l, Descends plan.derived l p ∧
      l.length ≤ maxDerivations ∧ ∃ r ∈ plan.main.uses, l.head? = some r) ∧
    ∀ name version, version.isSome = true ∨ isVariable name = false →
      (∀ stage ∈ plan.main.stages, stage.supply.isFactId = false) →
      ∀ alone, Query.typed ⟨[⟨none, .predicate name version none none⟩]⟩ s = .ok alone →
        ∃ both, Query.typed ⟨ss ++ [⟨none, .predicate name version none none⟩]⟩ s = .ok both ∧
          Bodies.Le plan.derived both.derived ∧ Bodies.Le alone.derived both.derived := by
  have hcoherent := hs.coherent
  have hadvance := Query.typed_advance hcoherent hplan
  refine ⟨fun p hp => ?_, fun name version hname hids alone halone => ?_⟩
  · rcases hadvance.near p hp with hnone | ⟨r, hr, l, hl, hlen⟩
    · cases hnone
    · exact ⟨r :: l, hl, hlen, r, hr, rfl⟩
  · -- by itself, the predicate is entered with no bodies known
    obtain ⟨stages, o, t, hstages, halone', hbodies⟩ :=
      TypingContext.body_none_iff.mp (Query.typed_iff.mp halone)
    obtain ⟨supply, o₁, t₁, bind, t₂, rest, hsupply, hbind, hrest, -⟩ := TypingContext.stages_cons hstages
    cases hbind
    cases hrest
    obtain ⟨d, hresolve, henter, hfacts⟩ := (TypingContext.supply_name hname).mp hsupply
    have hd := TypingContext.resolve_defines hcoherent hresolve
    have hderive : deriveWithin s maxDerivations [] d ∅ = .ok alone.derived := by
      unfold TypingContext.enter at henter
      split at henter
      · rename_i bodies hderive
        cases henter
        rw [hbodies]
        exact hderive
      · cases henter
    -- after the other statements it is entered with theirs
    have hwithin : Within s ∅ plan.derived :=
      ⟨fun _ _ h => (by cases h), Query.typed_stacked hcoherent hplan, Query.typed_proper hcoherent hplan⟩
    obtain ⟨bodies, hmore, hwithin'⟩ := deriveWithin_more hcoherent hd hwithin hderive
    obtain ⟨stages', o', t', hstages', hmain, hderived⟩ :=
      TypingContext.body_none_iff.mp (Query.typed_iff.mp hplan)
    have henter' : TypingContext.enter ⟨s, ∅, deriveWithin s maxDerivations []⟩ d t' =
        .ok ((), { t' with bodies }) := by
      unfold TypingContext.enter
      dsimp only
      rw [← hderived, hmore]
    have hlast := TypingContext.stages_snoc ⟨none, .predicate name version none none⟩ hstages'
      (by rw [hmain] at hids; exact hids)
      ((TypingContext.supply_name hname).mpr ⟨d, hresolve, henter', rfl⟩) rfl
    refine ⟨⟨_, _⟩, Query.typed_iff.mpr (TypingContext.body_none_iff.mpr ⟨_, _, _, hlast, rfl, rfl⟩),
      ?_, hwithin'.le⟩
    exact (deriveWithin_advance hcoherent hd hmore).kept

/-! ## A ladder -/

/-- The letters, capital ones first. -/
def rungName (i : Nat) : String := String.ofList [Char.ofNat (if i < 26 then 65 + i else 71 + i)]

/-- Thirty-three derived predicates of which each uses the next; the last uses a stored one. -/
def ladderDecl : SchemaDecl where
  name := "a"
  version := 1
  inherits := []
  imports := []
  items := .predicate (rungName 33) .string none none ::
    (List.range 33).map fun i => .predicate (rungName (32 - i)) .string none (some (.var "X",
      ⟨[⟨none, .predicate ("a." ++ rungName (33 - i)) (some 1) (some (.var "X")) none⟩]⟩))

def ladderSchema : Schema := (Schema.builtin.register ladderDecl).toOption.getD .builtin

theorem ladderSchema_registered : ladderSchema.Registered := Schema.Registered.builtin.register_getD _

/-- The derived predicates from the first to the last. -/
def ladder : List Predicate := (List.range 33).map fun i => ⟨"a." ++ rungName i, 1⟩

/-- A statement that asks for the facts of a predicate. -/
def rung (i : Nat) : Statement := ⟨none, .predicate ("a." ++ rungName i) (some 1) none none⟩

def rungsPlan (is : List Nat) : Plan := (Query.typed ⟨is.map rung⟩ ladderSchema).toOption.getD default

/-- Typing was refused since predicates were nested too deep. -/
def refusedAsDeep : Except Error Plan → Bool
  | .error (.type (.derivationTooDeep _ _)) => true
  | _ => false

theorem ladder_evaluated :
    (Query.typed ⟨[rung 1, rung 0]⟩ ladderSchema).toOption.isSome = true ∧
      (ladder.IsChain (Uses (rungsPlan [1, 0]).derived) ∧
        ∀ p ∈ ladder, (rungsPlan [1, 0]).derived.contains p = true) ∧
      refusedAsDeep (Query.typed ⟨[rung 0]⟩ ladderSchema) = true ∧
      (Query.typed ⟨[rung 31]⟩ ladderSchema).toOption.isSome = true ∧
      (∀ stage ∈ (rungsPlan [31]).main.stages, stage.supply.isFactId = false) ∧
      (Query.typed ⟨[rung 32]⟩ ladderSchema).toOption.isSome = true := by
  decide +kernel

/-- The limit is on what is being entered, and not on what has been: after the second predicate
of the ladder the first may be queried, and a chain of all thirty-three has bodies. By itself
the first is refused. -/
theorem Query.ladder_passes_limit : ladderSchema.Registered ∧
    Query.typed ⟨[rung 1, rung 0]⟩ ladderSchema = .ok (rungsPlan [1, 0]) ∧
    ladder.IsChain (Uses (rungsPlan [1, 0]).derived) ∧
    (∀ p ∈ ladder, (rungsPlan [1, 0]).derived.contains p = true) ∧
    maxDerivations < ladder.length ∧
    refusedAsDeep (Query.typed ⟨[rung 0]⟩ ladderSchema) = true :=
  ⟨ladderSchema_registered, Outcome.eq_ok_getD ladder_evaluated.1 _, ladder_evaluated.2.1.1,
    ladder_evaluated.2.1.2, by simp [ladder, maxDerivations], ladder_evaluated.2.2.1⟩

theorem Query.nesting_limited_rungs : ∃ both,
    Query.typed ⟨[rung 31, rung 32]⟩ ladderSchema = .ok both ∧
      Bodies.Le (rungsPlan [31]).derived both.derived ∧ Bodies.Le (rungsPlan [32]).derived both.derived :=
  (Query.nesting_limited ladderSchema_registered
      (Outcome.eq_ok_getD ladder_evaluated.2.2.2.1 default)).2 _ (some 1) (.inl rfl)
    ladder_evaluated.2.2.2.2.1 (rungsPlan [32]) (Outcome.eq_ok_getD ladder_evaluated.2.2.2.2.2 _)

end Factbase
