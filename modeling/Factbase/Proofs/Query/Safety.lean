import Factbase.Proofs.Query.Expressions
import Factbase.Proofs.Query.Sources

/-!
# Typed plans do not go wrong

What a typed plan means may fail for few reasons (`Reading.Excuse`): a
change between the two schemas cannot be bridged, a fact that the plan
names does not exist, or facts of a derived predicate are wanted before
the store is complete. Where it does not fail, values are of their types
and derived facts fit the schema (`World.Good`).

The proof follows the parts of a plan: matches, stages, bodies, and then
derived predicates in the order in which they were built.
-/

namespace Factbase

variable {σ : Type}

/-! ## Computations that may fail -/

section Yields

variable {α β : Type} {E : Error → Prop} {P : α → Prop} {Q : β → Prop}

/-- A computation fails as `E` says, or gives what satisfies `P`. -/
def Yields (E : Error → Prop) (P : α → Prop) (x : Except Error α) : Prop :=
  match x with
  | .ok a => P a
  | .error e => E e

namespace Yields

theorem bind {x : Except Error α} {f : α → Except Error β} (hx : Yields E P x)
    (hf : ∀ a, P a → Yields E Q (f a)) : Yields E Q (x >>= f) := by
  cases x with
  | error e => exact hx
  | ok a => exact hf a hx

theorem map {x : Except Error α} {f : α → β} (hx : Yields E P x) (hf : ∀ a, P a → Q (f a)) :
    Yields E Q (f <$> x) := by
  cases x with
  | error e => exact hx
  | ok a => exact hf a hx

theorem imp {E' : Error → Prop} {P' : α → Prop} {x : Except Error α} (hx : Yields E P x)
    (hE : ∀ e, E e → E' e) (hP : ∀ a, P a → P' a) : Yields E' P' x := by
  cases x with
  | error e => exact hE e hx
  | ok a => exact hP a hx

theorem mapM {f : α → Except Error β} {xs : List α} (hf : ∀ x ∈ xs, Yields E Q (f x)) :
    Yields E (fun ys => ∀ y ∈ ys, Q y) (xs.mapM f) := by
  induction xs with
  | nil => exact fun y hy => nomatch hy
  | cons x xs ih =>
      obtain ⟨hx, hxs⟩ := List.forall_mem_cons.mp hf
      rw [List.mapM_cons]
      exact hx.bind fun y hy => (ih hxs).bind fun ys hys => List.forall_mem_cons.mpr ⟨hy, hys⟩

theorem forM {f : α → Except Error PUnit} {xs : List α}
    (hf : ∀ x ∈ xs, Yields E (fun _ => True) (f x)) : Yields E (fun _ => True) (xs.forM f) := by
  induction xs with
  | nil => trivial
  | cons x xs ih =>
      obtain ⟨hx, hxs⟩ := List.forall_mem_cons.mp hf
      rw [List.forM]
      exact hx.bind fun _ _ => ih hxs

theorem filterMapM {f : α → Except Error (Option β)} {xs : List α}
    (hf : ∀ x ∈ xs, Yields E (fun found => ∀ y, found = some y → Q y) (f x)) :
    Yields E (fun ys => ∀ y ∈ ys, Q y) (xs.filterMapM f) := by
  induction xs with
  | nil => exact fun y hy => nomatch hy
  | cons x xs ih =>
      obtain ⟨hx, hxs⟩ := List.forall_mem_cons.mp hf
      rw [List.filterMapM_cons]
      refine hx.bind fun found hfound => ?_
      cases found with
      | none => exact ih hxs
      | some y => exact (ih hxs).bind fun ys hys => List.forall_mem_cons.mpr ⟨hfound y rfl, hys⟩

end Yields

namespace Attempt

/-- The same where nothing may be found. -/
def Yields (E : Error → Prop) (P : α → Prop) (a : Attempt α) : Prop :=
  Factbase.Yields E (fun found => ∀ x, found = some x → P x) a.run

theorem yields_pure {x : α} (h : P x) : Yields E P (pure x) := by
  intro y hy
  cases hy
  exact h

theorem yields_failure : Yields E P failure := fun _ h => nomatch h

namespace Yields

theorem bind {a : Attempt α} {f : α → Attempt β} (ha : Attempt.Yields E P a)
    (hf : ∀ x, P x → Attempt.Yields E Q (f x)) : Attempt.Yields E Q (a >>= f) := by
  unfold Attempt.Yields at *
  rw [OptionT.run_bind]
  refine ha.bind fun found hfound => ?_
  cases found with
  | none => exact fun _ h => nomatch h
  | some x => exact hf x (hfound x rfl)

theorem of_guard {c : Prop} [Decidable c] {a : Attempt α} (ha : c → Attempt.Yields E P a) :
    Attempt.Yields E P (do guard c; a) := by
  by_cases hc : c
  · rw [guard_pos hc, pure_bind]
    exact ha hc
  · rw [guard_neg hc]
    exact yields_failure

end Yields

end Attempt

end Yields

/-! ## Why a plan may fail -/

/-- A change between the schemas that cannot be bridged: facts stored under one definition
cannot be read under another. -/
inductive Reading.Unbridged (r : Reading σ) : Error → Prop
  | undefined {p q : Predicate} {old : Definition} : r.mode = .current →
    r.stored.get? p = some old → r.target.get? q = none →
    r.Unbridged (.unresolved (.unknown q.render))
  | unreadable {p q : Predicate} {old new : Definition} {e : ConversionFault} : r.mode = .current →
    r.stored.get? p = some old → r.target.get? q = some new →
    Conversion.between old.key new.key = .error e ∨ Conversion.between old.value new.value = .error e →
    r.Unbridged (.type (.unreadable p q e))

variable {r : Reading σ}

/-- A conversion from a definition that there is can only not be bridged. -/
theorem Reading.conversion_error {p q : Predicate} {old : Definition} {e : Error}
    (hold : r.stored.get? p = some old) (hmode : r.mode = .stored → p = q)
    (h : r.conversion p q = .error e) : r.Unbridged e := by
  unfold conversion at h
  split at h
  · cases h
  · rename_i hsame
    have hcurrent : r.mode = .current := by
      cases hm : r.mode with
      | current => rfl
      | stored => exact absurd ⟨hm, hmode hm⟩ hsame
    rw [hold] at h
    cases hnew : r.target.get? q with
    | none =>
        rw [hnew] at h
        cases h
        exact .undefined hcurrent hold hnew
    | some new =>
        rw [hnew] at h
        dsimp only at h
        cases hk : Conversion.between old.key new.key with
        | error fault =>
            rw [hk] at h
            cases h
            exact .unreadable hcurrent hold hnew (.inl hk)
        | ok key =>
            rw [hk] at h
            cases hv : Conversion.between old.value new.value with
            | error fault =>
                rw [hv] at h
                cases h
                exact .unreadable hcurrent hold hnew (.inr hv)
            | ok value =>
                rw [hv] at h
                cases h

theorem Reading.readable_stored {p q : Predicate} (h : r.readable p q = true) (hmode : r.mode = .stored) :
    p = q := by
  unfold readable at h
  rw [hmode] at h
  exact of_decide_eq_true h

variable [FactStore σ]

/-- Why a plan that names some facts may fail. -/
inductive Reading.Excuse (r : Reading σ) (named : FactId → Prop) : Error → Prop
  | unbridged {e : Error} : r.Unbridged e → r.Excuse named e
  /-- A fact that the plan names does not exist. -/
  | missing {id : FactId} : named id → FactStore.lookup r.store id = none →
    r.Excuse named (.notFound (.fact id))
  /-- Derived facts are not to be had before the store is complete. -/
  | incomplete {p : Predicate} {d : Definition} : r.target.get? p = some d → d.isDerived = true →
    FactStore.state r.store ≠ .complete → r.Excuse named (.incomplete (.derivation p))

/-! ## Reading -/

namespace Reading.Over

variable [LawfulFactStore σ] {met : Content → Prop} {log : List Fact} {w : World}

theorem convert_yields (h : r.Over met log) {f : Fact} (hf : f ∈ log) {p : Predicate}
    (hmode : r.mode = .stored → f.predicate = p) :
    Yields r.Unbridged (fun g => g.id = f.id ∧ g.predicate = p ∧ r.target.Fits g) (r.convert f p) := by
  obtain ⟨old, hold, -⟩ := h.fits f hf
  cases hc : r.conversion f.predicate p with
  | error e =>
      rw [convert, hc]
      exact conversion_error hold hmode hc
  | ok c =>
      obtain ⟨g, hg, -⟩ := h.on.convert_ok hf hc
      rw [hg]
      exact h.fits_of_convert hf hg

/-- What is read fits the schema of the query. -/
theorem read_yields (h : r.Over met log) (hw : w.Good r) (id : FactId) (p : Predicate) :
    Attempt.Yields r.Unbridged (fun f => f.id = id ∧ f.predicate = p ∧ r.target.Fits f)
      (r.read w.overlay id p) := by
  have hlook := h.look_sound hw id p
  unfold Attempt.Yields
  cases hread : r.read w.overlay id p with
  | ok found =>
      intro f hfound
      exact hlook f (hfound ▸ hread)
  | error e =>
      show r.Unbridged e
      unfold read at hread
      cases hget : w.overlay.get? id with
      | some f =>
          rw [hget] at hread
          cases hread
      | none =>
          rw [hget] at hread
          dsimp only at hread
          cases hlookup : FactStore.lookup r.store id with
          | none =>
              rw [hlookup] at hread
              cases hread
          | some f =>
              rw [hlookup] at hread
              dsimp only at hread
              obtain ⟨hf, -⟩ := h.on.lookup_iff.mp hlookup
              split at hread
              · rename_i hreadable
                have hconvert := h.convert_yields hf (readable_stored hreadable)
                cases hg : r.convert f p with
                | error e' =>
                    rw [hg] at hread hconvert
                    cases hread
                    exact hconvert
                | ok g =>
                    rw [hg] at hread
                    cases hread
              · cases hread

/-- A fact is read as what it is, or as the latest version of it. -/
theorem readAny_yields (h : r.Over met log) (hw : w.Good r) (id : FactId) :
    Attempt.Yields r.Unbridged (fun f => f.id = id ∧ r.target.Fits f) (r.readAny w.overlay id) := by
  unfold Attempt.Yields readAny
  cases hget : w.overlay.get? id with
  | some f =>
      rintro g ⟨⟩
      exact hw.facts id f hget
  | none =>
      dsimp only
      cases hlookup : FactStore.lookup r.store id with
      | none => exact fun _ hnone => nomatch hnone
      | some f =>
          obtain ⟨hf, rfl⟩ := h.on.lookup_iff.mp hlookup
          have hown : r.mode = .stored → f.predicate = r.ownTarget f.predicate := fun hmode => by
            rw [ownTarget, hmode]
          refine (h.convert_yields hf hown).map ?_
          rintro g ⟨hid, -, hfit⟩ _ ⟨⟩
          exact ⟨hid, hfit⟩

/-- Facts of a predicate can be read unless a change cannot be bridged. -/
theorem prepare_yields (h : r.Over met log) (p : Predicate) :
    Yields r.Unbridged (fun _ => True) (r.prepare p) := by
  have hsource : ∀ q ∈ r.sources p, Yields r.Unbridged (fun _ => True) (r.conversion q p) := by
    intro q hq
    cases hc : r.conversion q p with
    | ok c => trivial
    | error e =>
        unfold sources at hq
        cases hmode : r.mode with
        | stored =>
            rw [hmode] at hq
            obtain rfl := List.mem_singleton.mp hq
            rw [conversion, if_pos ⟨hmode, rfl⟩] at hc
            cases hc
        | current =>
            rw [hmode] at hq
            have hmem := (List.mem_filter.mp hq).1
            rw [LawfulFactStore.predicates_eq h.holds, FactIndex.mem_predicates_ofFacts] at hmem
            obtain ⟨f, hf, rfl⟩ := hmem
            obtain ⟨old, hold, -⟩ := h.fits f hf
            exact conversion_error hold (fun hstored => nomatch hmode.symm.trans hstored) hc
  exact .forM fun q hq => (hsource q hq).map fun _ _ => trivial

end Reading.Over

/-! ## Matches -/

/-- A value that a source of some kind yields. -/
def Outcome.Holds (o : Outcome) (v : Value) : Prop :=
  match o with
  | .fact _ | .anyFact => ∃ id, v = .fact id
  | .value ty => ty.Conforms v

theorem Outcome.holds_ofTy {ty : Ty} {v : Value} (h : ty.Conforms v) : (Outcome.ofTy ty).Holds v := by
  cases ty with
  | predicate p => exact Ty.conforms_predicate_iff.mp h
  | _ => exact h

theorem Outcome.conforms_of_holds {ty : Ty} {v : Value} (h : (Outcome.ofTy ty).Holds v) :
    ty.Conforms v := by
  cases ty with
  | predicate p => exact Ty.conforms_predicate_iff.mpr h
  | _ => exact h

/-- Primitive functions give values of their types. -/
theorem Prim.apply_conforms (function : Prim) {ty : Ty} (hty : function.Takes ty) {v : Value}
    (hv : ty.Conforms v) : ∃ u, function.apply v = .ok u ∧ function.gives.Conforms u := by
  cases function with
  | toLower | toUpper =>
      obtain rfl := hty
      obtain ⟨s, rfl⟩ := Ty.conforms_string_iff.mp hv
      exact ⟨_, rfl, rfl⟩
  | length =>
      obtain ⟨elem, rfl⟩ := hty
      obtain ⟨items, rfl, -⟩ := Ty.conforms_array_iff.mp hv
      exact ⟨_, rfl, rfl⟩

variable {c : PlanContext} {look : Look} {E : Error → Prop} {env : Env} {k k' : Nat} {o : Outcome}

/-- What is read fits a schema, or cannot be read for a reason. -/
def Look.Safe (E : Error → Prop) (s : Schema) (look : Look) : Prop :=
  ∀ id p, Attempt.Yields E (fun f => f.predicate = p ∧ s.Fits f) (look id p)

namespace Match

mutual
/-- A match leads from a typed environment to another one. -/
theorem against_yields (hlook : look.Safe E c.schema) : (m : Match) → {ty : Ty} → {x : Value} →
    {env : Env} → {k k' : Nat} → m.Typed c ty k k' → ty.Conforms x → env.Typed c k →
    Attempt.Yields E (·.Typed c k') (m.against look x env)
  | .wild, _, x, _, _, _, hm, _, henv => by
      obtain rfl := hm
      rw [against]
      exact Attempt.yields_pure henv
  | .bind v, ty, x, env, _, _, hm, hx, henv => by
      obtain ⟨rfl, rfl, y, hy, rfl⟩ := hm
      rw [against]
      exact Attempt.yields_pure (henv.bind hy hx)
  | .same v, ty, x, env, _, _, hm, _, henv => by
      obtain ⟨rfl, -⟩ := hm
      rw [against]
      exact .of_guard fun _ => Attempt.yields_pure henv
  | .lit value, ty, x, env, _, _, hm, _, henv => by
      obtain ⟨rfl, -⟩ := hm
      rw [against]
      exact .of_guard fun _ => Attempt.yields_pure henv
  | .stringStart start, ty, x, env, _, _, hm, hx, henv => by
      obtain ⟨rfl, rfl⟩ := hm
      obtain ⟨s, rfl⟩ := Ty.conforms_string_iff.mp hx
      rw [against]
      exact .of_guard fun _ => Attempt.yields_pure henv
  | .array items, ty, x, env, _, _, hm, hx, henv => by
      obtain ⟨elem, rfl, hitems⟩ := hm
      obtain ⟨xs, rfl, hxs⟩ := Ty.conforms_array_iff.mp hx
      rw [against]
      exact .of_guard fun hlen => againstAll_yields hlook items hitems hlen hxs henv
  | .record arity fields, ty, x, env, _, _, hm, hx, henv => by
      obtain ⟨all, rfl, -, hfields⟩ := hm
      obtain ⟨xs, rfl, hxs⟩ := Ty.conforms_record_iff.mp hx
      rw [against]
      exact .of_guard fun _ => againstFields_yields hlook fields hfields hxs henv
  | .alt index payload, ty, x, env, _, _, hm, hx, henv => by
      obtain ⟨alts, a, rfl, ha, hpayload⟩ := hm
      obtain ⟨i, y, rfl, a', ha', hy⟩ := Ty.conforms_sum_iff.mp hx
      rw [against]
      refine .of_guard fun hi => ?_
      obtain rfl : a' = a := Option.some.inj (ha'.symm.trans (hi ▸ ha))
      exact against_yields hlook payload hpayload hy henv
  | .deref p key, ty, x, env, _, _, hm, hx, henv => by
      obtain ⟨rfl, d, hd, -, hkey⟩ := hm
      obtain ⟨id, rfl⟩ := Ty.conforms_predicate_iff.mp hx
      rw [against]
      refine (hlook id p).bind fun f hf => ?_
      obtain ⟨rfl, d', hd', hfit, -⟩ := hf
      obtain rfl : d' = d := Option.some.inj (hd'.symm.trans hd)
      exact against_yields hlook key hkey hfit henv

theorem againstAll_yields (hlook : look.Safe E c.schema) : (ms : List Match) → {elem : Ty} →
    {xs : List Value} → {env : Env} → {k k' : Nat} → TypedAll c ms elem k k' →
    xs.length = ms.length → (∀ x ∈ xs, elem.Conforms x) → env.Typed c k →
    Attempt.Yields E (·.Typed c k') (againstAll look ms xs env)
  | [], _, _, _, _, _, hms, _, _, henv => by
      obtain rfl := hms
      rw [againstAll]
      · exact Attempt.yields_pure henv
      · exact fun _ _ _ _ h => nomatch h
  | m :: ms, elem, x :: xs, env, k, k', hms, hlen, hxs, henv => by
      obtain ⟨j, hm, hms⟩ := hms
      obtain ⟨hx, hxs⟩ := List.forall_mem_cons.mp hxs
      rw [againstAll]
      exact (against_yields hlook m hm hx henv).bind fun env' henv' =>
        againstAll_yields hlook ms hms (Nat.succ.inj hlen) hxs henv'

theorem againstFields_yields (hlook : look.Safe E c.schema) : (ms : List (Nat × Match)) →
    {all : List Field} → {xs : List Value} → {env : Env} → {k k' : Nat} →
    TypedFields c ms all k k' → List.Forall₂ (fun f x => f.ty.Conforms x) all xs → env.Typed c k →
    Attempt.Yields E (·.Typed c k') (againstFields look ms xs env)
  | [], _, _, _, _, _, hms, _, henv => by
      obtain rfl := hms
      rw [againstFields]
      exact Attempt.yields_pure henv
  | (i, m) :: ms, all, xs, env, k, k', hms, hxs, henv => by
      obtain ⟨f, j, hf, hm, hms⟩ := hms
      obtain ⟨x, hx, hfit⟩ := forall₂_getElem? hxs hf
      rw [againstFields, hx]
      exact (against_yields hlook m hm hfit henv).bind fun env' henv' =>
        againstFields_yields hlook ms hms hxs henv'
end

end Match

/-- A value that a source of some kind yields is matched. -/
theorem Outcome.Matched.against_yields (hlook : look.Safe E c.schema) {m : Match} {x : Value}
    (hm : o.Matched c m k k') (hx : o.Holds x) (henv : env.Typed c k) :
    Attempt.Yields E (·.Typed c k') (m.against look x env) := by
  cases o with
  | fact p =>
      exact Match.against_yields hlook m hm (Ty.conforms_predicate_iff.mpr hx) henv
  | anyFact =>
      obtain ⟨rfl, rfl⟩ := hm
      rw [Match.against]
      exact Attempt.yields_pure henv
  | value ty => exact Match.against_yields hlook m hm hx henv

/-! ## Stages -/

/-- A fact fits a definition of its predicate. -/
theorem Schema.Fits.of_get? {s : Schema} {f : Fact} {d : Definition} (h : s.Fits f)
    (hd : s.get? f.predicate = some d) : d.key.Conforms f.key ∧ d.value.Conforms f.value := by
  obtain ⟨d', hd', hfit⟩ := h
  obtain rfl := Option.some.inj (hd.symm.trans hd')
  exact hfit

namespace Stage

/-- The facts that a stage names. -/
def Names (s : Stage) (named : FactId → Prop) : Prop := ∀ n, s.supply = .factId n → named ⟨n⟩

/-- The derived facts that a stage draws from are those that were computed. -/
def Known (w : World) (s : Stage) (known : List FactId) : Prop :=
  ∀ p key value, s.supply = .facts p true key value → w.derived.get? p = some known

/-- What a candidate of a stage can be. -/
def Candid (w : World) (s : Stage) (o : Outcome) : Candidate → Prop
  | .value v => (∀ p derived key value, s.supply ≠ .facts p derived key value) ∧ o.Holds v
  | .fact id => (∀ v, o.Holds (.fact v)) ∧
    ∀ p key value, s.supply = .facts p true key value → ∃ f, w.overlay.get? id = some f ∧ f.predicate = p

end Stage

namespace Match

/-- Testing a key, or comparing it, leads to a typed environment. -/
theorem onKey_yields (hlook : look.Safe E c.schema) {derived : Bool} {key : Match} {ty : Ty} {f : Fact}
    (hkey : key.Typed c ty k k') (hf : ty.Conforms f.key) (henv : env.Typed c k) :
    Attempt.Yields E (·.Typed c k') (key.onKey look derived f env) := by
  unfold onKey
  split
  · rename_i e he
    obtain ⟨rfl, -⟩ := expr?_typed (M := fun _ => True) key hkey (fun _ _ => trivial) he
    exact .of_guard fun _ => Attempt.yields_pure henv
  · exact against_yields hlook key hkey hf henv

end Match

section Stages

variable [LawfulFactStore σ] {met : Content → Prop} {log : List Fact} {w : World} {s : Stage}
variable {known : List FactId}

theorem Reading.Over.look_safe (h : r.Over met log) (hw : w.Good r) :
    Look.Safe (r.Excuse named) r.target (r.read w.overlay) :=
  fun id p => (h.read_yields hw id p).imp (fun _ => .unbridged) fun _ hfound f hf => (hfound f hf).2

namespace Stage

/-- Drawing candidates fails only for a fact that does not exist, or where keys cannot be
converted. -/
theorem candidates_yield (h : r.Over met log) (hw : w.Good r) (hs : s.Typed c o k k')
    (hnamed : s.Names named) (hknown : s.Known w known) (henv : env.Typed c k) :
    Yields (r.Excuse named) (fun xs => ∀ x ∈ xs, s.Candid w o x)
      (s.supply.candidates r w.overlay known env) := by
  obtain ⟨supply, m⟩ := s
  obtain ⟨j, hsupply, -⟩ := hs
  cases supply with
  | facts p derived key value =>
      obtain ⟨rfl, -⟩ := hsupply
      have hfact : ∀ id, (Outcome.fact p).Holds (.fact id) := fun id => ⟨id, rfl⟩
      cases derived with
      | true =>
          refine List.forall_mem_map.mpr fun id hid => ⟨hfact, fun p' key' value' heq => ?_⟩
          cases heq
          exact hw.memo p known (hknown p key value rfl) id hid
      | false =>
          have hall : ∀ x ∈ (FactStore.ids r.store).map Candidate.fact,
              Candid w ⟨.facts p false key value, m⟩ (.fact p) x :=
            List.forall_mem_map.mpr fun id _ => ⟨hfact, fun _ _ _ heq => nomatch heq⟩
          rw [Supply.candidates]
          split
          · exact ((h.prepare_yields p).imp (fun _ => .unbridged) fun _ h => h).bind fun _ _ => hall
          · exact hall
  | factId n =>
      obtain ⟨rfl, -⟩ := hsupply
      have hfact : ∀ id, Candid w ⟨.factId n, m⟩ .anyFact (.fact id) :=
        fun id => ⟨fun id => ⟨id, rfl⟩, fun _ _ _ heq => nomatch heq⟩
      rw [Supply.candidates]
      split
      · exact List.forall_mem_singleton.mpr (hfact _)
      · cases hlookup : FactStore.lookup r.store ⟨n⟩ with
        | none => exact .missing (hnamed n rfl) hlookup
        | some f => exact List.forall_mem_map.mpr fun id _ => hfact id
  | prim function arg =>
      obtain ⟨rfl, rfl, ty, htakes, harg⟩ := hsupply
      obtain ⟨v, hv, hfit⟩ := Expr.eval_conforms henv arg harg
      obtain ⟨u, hu, hufit⟩ := function.apply_conforms htakes hfit
      rw [Supply.candidates, hv]
      dsimp only
      rw [hu]
      exact List.forall_mem_singleton.mpr ⟨fun _ _ _ _ heq => (nomatch heq), hufit⟩
  | expr e =>
      obtain ⟨rfl, ty, rfl, he⟩ := hsupply
      obtain ⟨v, hv, hfit⟩ := Expr.eval_conforms henv e he
      rw [Supply.candidates, hv]
      exact List.forall_mem_singleton.mpr
        ⟨fun _ _ _ _ heq => (nomatch heq), Outcome.holds_ofTy hfit⟩

/-- What a candidate stands for is of the kind that the stage yields, and leads to a typed
environment. -/
theorem attempt_yields (h : r.Over met log) (hw : w.Good r) (hc : c.schema = r.target)
    (hs : s.Typed c o k k') (henv : env.Typed c k) {x : Candidate} (hx : s.Candid w o x) :
    Attempt.Yields (r.Excuse named) (fun res => o.Holds res.1 ∧ res.2.Typed c k')
      (s.attempt r w.overlay env x) := by
  have hlook : Look.Safe (r.Excuse named) c.schema (r.read w.overlay) := hc ▸ h.look_safe hw
  obtain ⟨supply, m⟩ := s
  obtain ⟨j, hsupply, hm⟩ := hs
  have hbind {v : Value} {env' : Env} (hv : o.Holds v) (henv' : env'.Typed c j) :
      Attempt.Yields (r.Excuse named) (fun res => o.Holds res.1 ∧ res.2.Typed c k') (do
        let env'' ← m.against (r.read w.overlay) v env'
        return (v, env'')) :=
    (hm.against_yields hlook hv henv').bind fun env'' henv'' => Attempt.yields_pure ⟨hv, henv''⟩
  cases x with
  | value v =>
      obtain ⟨hnot, hv⟩ := hx
      have hkj : j = k := by
        cases supply with
        | facts p derived key value => exact absurd rfl (hnot p derived key value)
        | factId n => exact hsupply.2
        | prim function arg => exact hsupply.2.1
        | expr e => exact hsupply.1
      rw [attempt, pure_bind]
      exact hbind hv (hkj ▸ henv)
  | fact id =>
      obtain ⟨hfact, hderived⟩ := hx
      simp only [attempt, pure_bind]
      have htest {P : Fact → Prop} (hfetch : Attempt.Yields (r.Excuse named) P
            (supply.fetch r w.overlay id))
          (hon : ∀ f, P f → Attempt.Yields (r.Excuse named) (·.Typed c j)
            (supply.onFact (r.read w.overlay) f env)) :
          Attempt.Yields (r.Excuse named) (fun res => o.Holds res.1 ∧ res.2.Typed c k') (do
            let f ← supply.fetch r w.overlay id
            let env ← supply.onFact (r.read w.overlay) f env
            let env ← m.against (r.read w.overlay) (.fact f.id) env
            return (.fact f.id, env)) :=
        hfetch.bind fun f hf => (hon f hf).bind fun env' henv' => hbind (hfact f.id) henv'
      have hany : Attempt.Yields (r.Excuse named) (fun _ => True) (r.readAny w.overlay id) :=
        (h.readAny_yields hw id).imp (fun _ => .unbridged) fun _ _ _ _ => trivial
      cases supply with
      | facts p derived key value =>
          obtain ⟨rfl, d, i, hd, -, -, hkey, hvalue⟩ := hsupply
          refine htest (P := fun f => f.predicate = p ∧ r.target.Fits f) ?_ fun f hf => ?_
          · cases derived with
            | true =>
                obtain ⟨f, hget, hp⟩ := hderived p key value rfl
                rintro f' hfound
                obtain rfl : f = f' := Option.some.inj (hget.symm.trans hfound)
                exact ⟨hp, (hw.facts id f hget).2⟩
            | false => exact h.look_safe hw id p
          · obtain ⟨rfl, hfit⟩ := hf
            obtain ⟨hkfit, hvfit⟩ := hfit.of_get? (hc ▸ hd)
            rw [Supply.onFact]
            exact (Match.onKey_yields hlook hkey hkfit henv).bind fun env' henv' =>
              Match.against_yields hlook value hvalue hvfit henv'
      | factId n =>
          obtain ⟨-, rfl⟩ := hsupply
          exact htest hany fun f _ => Attempt.yields_pure henv
      | prim function arg =>
          obtain ⟨-, rfl, -⟩ := hsupply
          exact htest hany fun f _ => Attempt.yields_pure henv
      | expr e =>
          obtain ⟨rfl, -⟩ := hsupply
          exact htest hany fun f _ => Attempt.yields_pure henv

/-- What a stage keeps. -/
theorem kept_yields (h : r.Over met log) (hw : w.Good r) (hc : c.schema = r.target)
    (hs : s.Typed c o k k') (hnamed : s.Names named) (hknown : s.Known w known)
    (henv : env.Typed c k) :
    Yields (r.Excuse named) (fun kept => ∀ res ∈ kept, o.Holds res.1 ∧ res.2.Typed c k')
      (s.kept r w.overlay known env) :=
  (candidates_yield h hw hs hnamed hknown henv).bind fun _ hxs =>
    .filterMapM fun x hx => attempt_yields h hw hc hs henv (hxs x hx)

end Stage

end Stages

end Factbase
