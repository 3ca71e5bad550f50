import Factbase.Proofs.Query.Expressions
import Factbase.Proofs.Query.Liveness
import Factbase.Proofs.Query.Typing
import Factbase.Store.Memory

/-!
# Keys that are sought

Where there is an expression for the key that matches, facts are sought by
its value; otherwise they are scanned, and their keys are tested part by
part. Both let the same keys through, as long as no record pattern names a
field twice (`Query.seek_iff_scan`). Of two patterns for one field the tests
ask for both, and the expression has only the later one (`Match.latest`): so
all that a scan lets through is found, but more may be.
-/

namespace Factbase

/-! ## Attempts that bind nothing -/

namespace Attempt

variable {s : Attempt Env} {t : Env → Attempt Env} {env : Env} {P Q : Prop}

/-- An attempt that binds nothing, and succeeds just if something holds. -/
def Tests (env : Env) (P : Prop) (s : Attempt Env) : Prop := (P → s = pure env) ∧ (¬ P → s = failure)

/-- An attempt that binds nothing, and succeeds only if something holds. -/
def Checks (env : Env) (P : Prop) (s : Attempt Env) : Prop := s = failure ∨ P ∧ s = pure env

theorem Tests.congr (h : Tests env P s) (hiff : P ↔ Q) : Tests env Q s :=
  ⟨fun hQ => h.1 (hiff.mpr hQ), fun hQ => h.2 fun hP => hQ (hiff.mp hP)⟩

theorem Tests.done (h : P) : Tests env P (pure env) := ⟨fun _ => rfl, fun hP => absurd h hP⟩

theorem Tests.never (h : ¬ P) : Tests env P failure := ⟨fun hP => absurd hP h, fun _ => rfl⟩

theorem Tests.guarded {u : Attempt Env} [Decidable P] (hu : P → Tests env Q u) :
    Tests env (P ∧ Q) (do guard P; u) := by
  by_cases hP : P
  · rw [guard_pos hP, pure_bind]
    exact (hu hP).congr (and_iff_right hP).symm
  · rw [guard_neg hP]
    exact .never fun h => hP h.1

theorem Tests.test [Decidable P] : Tests env P (do guard P; return env) :=
  (Tests.guarded fun _ => .done trivial).congr (and_iff_left trivial)

theorem Tests.andThen (hs : Tests env P s) (ht : Tests env Q (t env)) :
    Tests env (P ∧ Q) (s >>= t) := by
  by_cases hP : P
  · rw [hs.1 hP, pure_bind]
    exact ht.congr (and_iff_right hP).symm
  · rw [hs.2 hP]
    exact .never fun h => hP h.1

theorem Tests.checks (h : Tests env P s) : Checks env P s := by
  by_cases hP : P
  · exact .inr ⟨hP, h.1 hP⟩
  · exact .inl (h.2 hP)

theorem Tests.iff (h : Tests env P s) : P ↔ s.run = .ok (some env) := by
  refine ⟨fun hP => by rw [h.1 hP]; rfl, fun hs => ?_⟩
  by_contra hP
  rw [h.2 hP] at hs
  cases hs

theorem Checks.imp (h : Checks env P s) (himp : P → Q) : Checks env Q s :=
  h.imp_right fun ⟨hP, hs⟩ => ⟨himp hP, hs⟩

theorem Checks.guarded {u : Attempt Env} [Decidable P] (hu : P → Checks env Q u) :
    Checks env Q (do guard P; u) := by
  by_cases hP : P
  · rw [guard_pos hP, pure_bind]
    exact hu hP
  · rw [guard_neg hP]
    exact .inl rfl

theorem Checks.andThen (hs : Checks env P s) (ht : P → Checks env Q (t env)) :
    Checks env Q (s >>= t) := by
  rcases hs with rfl | ⟨hP, rfl⟩
  · exact .inl rfl
  · rw [pure_bind]
    exact ht hP

theorem Checks.holds {env' : Env} (h : Checks env P s) (hs : s.run = .ok (some env')) : P := by
  rcases h with rfl | ⟨hP, -⟩
  · cases hs
  · exact hP

end Attempt

/-! ## Values of expressions, by parts -/

namespace Expr

variable {env : Env}

theorem eval_array_iff {es : List Expr} {v : Value} :
    (Expr.array es).eval env = some v ↔ ∃ vs, v = .array vs ∧ evalAll env es = some vs := by
  rw [eval, Option.map_eq_some_iff]
  exact ⟨fun ⟨vs, hvs, h⟩ => ⟨vs, h.symm, hvs⟩, fun ⟨vs, h, hvs⟩ => ⟨vs, hvs, h.symm⟩⟩

theorem eval_record_iff {es : List Expr} {v : Value} :
    (Expr.record es).eval env = some v ↔ ∃ vs, v = .record vs ∧ evalAll env es = some vs := by
  rw [eval, Option.map_eq_some_iff]
  exact ⟨fun ⟨vs, hvs, h⟩ => ⟨vs, h.symm, hvs⟩, fun ⟨vs, h, hvs⟩ => ⟨vs, hvs, h.symm⟩⟩

theorem eval_alt_iff {index : UInt32} {e : Expr} {v : Value} :
    (Expr.alt index e).eval env = some v ↔ ∃ x, v = .alt index x ∧ e.eval env = some x := by
  rw [eval, Option.map_eq_some_iff]
  exact ⟨fun ⟨x, hx, h⟩ => ⟨x, h.symm, hx⟩, fun ⟨x, h, hx⟩ => ⟨x, hx, h.symm⟩⟩

theorem evalAll_cons_iff {e : Expr} {es : List Expr} {v : Value} {vs : List Value} :
    evalAll env (e :: es) = some (v :: vs) ↔ e.eval env = some v ∧ evalAll env es = some vs := by
  rw [evalAll]
  constructor
  · intro h
    obtain ⟨v', hv, h⟩ := Option.bind_eq_some_iff.mp h
    obtain ⟨vs', hvs, h⟩ := Option.bind_eq_some_iff.mp h
    cases h
    exact ⟨hv, hvs⟩
  · rintro ⟨hv, hvs⟩
    rw [hv, hvs]
    rfl

theorem evalAll_length {es : List Expr} {vs : List Value} (h : evalAll env es = some vs) :
    vs.length = es.length := by
  induction es generalizing vs with
  | nil =>
      cases h
      rfl
  | cons e es ih =>
      rw [evalAll] at h
      obtain ⟨v, -, h⟩ := Option.bind_eq_some_iff.mp h
      obtain ⟨rest, hrest, h⟩ := Option.bind_eq_some_iff.mp h
      cases h
      rw [List.length_cons, List.length_cons, ih hrest]

/-- Expressions have values item by item. -/
theorem evalAll_iff {es : List Expr} {vs : List Value} (hlen : es.length = vs.length) :
    evalAll env es = some vs ↔ ∀ (i : Nat) (e : Expr), es[i]? = some e → e.eval env = vs[i]? := by
  induction es generalizing vs with
  | nil =>
      obtain rfl := List.eq_nil_of_length_eq_zero hlen.symm
      simp [evalAll]
  | cons e es ih =>
      cases vs with
      | nil => cases hlen
      | cons v vs =>
          rw [evalAll_cons_iff, ih (Nat.succ.inj hlen)]
          constructor
          · rintro ⟨hv, hvs⟩ i
            cases i with
            | zero => rintro e' ⟨⟩; exact hv
            | succ i => exact hvs i
          · exact fun h => ⟨h 0 e rfl, fun i => h (i + 1)⟩

end Expr

namespace Match

/-! ## The later pattern for a field -/

mutual
/-- The match with only the last of the patterns that a record has for a field. -/
def latest : Match → Match
  | .array items => .array (latestAll items)
  | .record arity fields => .record arity (latestFields fields)
  | .alt index payload => .alt index payload.latest
  | .deref p key => .deref p key.latest
  | .wild => .wild
  | .bind v => .bind v
  | .same v => .same v
  | .lit value => .lit value
  | .stringStart s => .stringStart s

def latestAll : List Match → List Match
  | [] => []
  | m :: ms => m.latest :: latestAll ms

def latestFields : List (Nat × Match) → List (Nat × Match)
  | [] => []
  | (i, m) :: ms => if i ∈ ms.map (·.1) then latestFields ms else (i, m.latest) :: latestFields ms
end

mutual
/-- No record pattern names a field twice. -/
def distinct : Match → Bool
  | .array items => distinctAll items
  | .record _ fields => distinctFields fields
  | .alt _ payload => payload.distinct
  | .deref _ key => key.distinct
  | .wild | .bind _ | .same _ | .lit _ | .stringStart _ => true

def distinctAll : List Match → Bool
  | [] => true
  | m :: ms => m.distinct && distinctAll ms

def distinctFields : List (Nat × Match) → Bool
  | [] => true
  | (i, m) :: ms => i ∉ ms.map (·.1) && m.distinct && distinctFields ms
end

section Latest

attribute [local simp] latest latestAll latestFields distinct distinctAll distinctFields

mutual
theorem latest_of_distinct : (m : Match) → m.distinct = true → m.latest = m
  | .array items, h => by
      simp only [distinct] at h
      simp only [latest]
      rw [latestAll_of_distinct items h]
  | .record arity fields, h => by
      simp only [distinct] at h
      simp only [latest]
      rw [latestFields_of_distinct fields h]
  | .alt index payload, h => by
      simp only [distinct] at h
      simp only [latest]
      rw [latest_of_distinct payload h]
  | .deref p key, h => by
      simp only [distinct] at h
      simp only [latest]
      rw [latest_of_distinct key h]
  | .wild, _ | .bind _, _ | .same _, _ | .lit _, _ | .stringStart _, _ => by simp only [latest]

theorem latestAll_of_distinct : (ms : List Match) → distinctAll ms = true → latestAll ms = ms
  | [], _ => by simp only [latestAll]
  | m :: ms, h => by
      simp only [distinctAll, Bool.and_eq_true] at h
      simp only [latestAll]
      rw [latest_of_distinct m h.1, latestAll_of_distinct ms h.2]

theorem latestFields_of_distinct : (ms : List (Nat × Match)) → distinctFields ms = true →
    latestFields ms = ms
  | [], _ => by simp only [latestFields]
  | (i, m) :: ms, h => by
      simp only [distinctFields, Bool.and_eq_true, decide_eq_true_eq] at h
      obtain ⟨⟨hi, hm⟩, hms⟩ := h
      simp only [latestFields]
      rw [if_neg hi, latest_of_distinct m hm, latestFields_of_distinct ms hms]
end

end Latest

/-! ## The slots of a record -/

section Slots

variable {ms : List (Nat × Match)} {slots out : List (Option Expr)}

theorem fillSlots_cons {i : Nat} {m : Match} (h : fillSlots ((i, m) :: ms) slots = some out) :
    ∃ e, m.expr? = some e ∧ i < slots.length ∧ fillSlots ms (slots.set i (some e)) = some out := by
  rw [fillSlots] at h
  obtain ⟨e, he, h⟩ := Option.bind_eq_some_iff.mp h
  obtain ⟨⟨⟩, hi, h⟩ := Option.bind_eq_some_iff.mp h
  exact ⟨e, he, (Option.guard_eq_some' ()).mp hi, h⟩

theorem fillSlots_length (h : fillSlots ms slots = some out) : out.length = slots.length := by
  induction ms generalizing slots with
  | nil =>
      cases h
      rfl
  | cons im ms ih =>
      obtain ⟨e, -, -, h⟩ := fillSlots_cons h
      rw [ih h, List.length_set]

/-- A slot that no pattern names stays as it is. -/
theorem fillSlots_unnamed (h : fillSlots ms slots = some out) {i : Nat} (hi : i ∉ ms.map (·.1)) :
    out[i]? = slots[i]? := by
  induction ms generalizing slots with
  | nil =>
      cases h
      rfl
  | cons im ms ih =>
      obtain ⟨hne, hi⟩ := not_or.mp fun h => hi (List.mem_cons.mpr h)
      obtain ⟨e, -, -, h⟩ := fillSlots_cons h
      rw [ih h hi, List.getElem?_set_ne (Ne.symm hne)]

theorem slots_eq_map {es : List Expr} (h : slots.mapM id = some es) : slots = es.map some := by
  induction slots generalizing es with
  | nil =>
      cases h
      rfl
  | cons slot slots ih =>
      rw [List.mapM_cons] at h
      obtain ⟨e, he, h⟩ := Option.bind_eq_some_iff.mp h
      obtain ⟨rest, hrest, h⟩ := Option.bind_eq_some_iff.mp h
      cases h
      rw [ih hrest, List.map_cons, show slot = some e from he]

/-- Expressions in slots, where there are any, have the values of the fields. -/
def SlotsAgree (env : Env) (xs : List Value) (slots : List (Option Expr)) : Prop :=
  ∀ (i : Nat) (e : Expr), slots[i]? = some (some e) → e.eval env = xs[i]?

theorem slotsAgree_iff {env : Env} {es : List Expr} {xs : List Value} (hlen : es.length = xs.length) :
    SlotsAgree env xs (es.map some) ↔ Expr.evalAll env es = some xs := by
  rw [Expr.evalAll_iff hlen]
  simp [SlotsAgree]

end Slots

/-! ## Tests and values -/

theorem latestAll_length (ms : List Match) : (latestAll ms).length = ms.length := by
  induction ms with
  | nil => rfl
  | cons m ms ih => exact congrArg Nat.succ ih

theorem exprs?_length {ms : List Match} {es : List Expr} (h : exprs? ms = some es) :
    es.length = ms.length := by
  induction ms generalizing es with
  | nil =>
      cases h
      rfl
  | cons m ms ih =>
      obtain ⟨e, -, h⟩ := Option.bind_eq_some_iff.mp h
      obtain ⟨rest, hrest, h⟩ := Option.bind_eq_some_iff.mp h
      cases h
      exact congrArg Nat.succ (ih hrest)

theorem exists_of_record_expr? {arity : Nat} {fields : List (Nat × Match)} {e : Expr}
    (h : (Match.record arity fields).expr? = some e) :
    ∃ es, e = .record es ∧ es.length = arity ∧
      fillSlots fields (List.replicate arity none) = some (es.map some) := by
  obtain ⟨out, hout, h⟩ := Option.bind_eq_some_iff.mp h
  obtain ⟨es, hes, h⟩ := Option.bind_eq_some_iff.mp h
  cases h
  obtain rfl := slots_eq_map hes
  refine ⟨es, rfl, ?_, hout⟩
  have hlen := fillSlots_length hout
  rwa [List.length_map, List.length_replicate] at hlen

variable (look : Look) (env : Env)

mutual
/-- The tests of the latest patterns let just the value of the expression through. -/
theorem latest_tests : (m : Match) → {e : Expr} → m.expr? = some e → (x : Value) →
    Attempt.Tests env (e.eval env = some x) (m.latest.against look x env)
  | .wild, _, h, _ | .bind _, _, h, _ | .stringStart _, _, h, _ | .deref _ _, _, h, _ => nomatch h
  | .same v, _, h, x => by
      cases h
      exact Attempt.Tests.test (P := env v = some x)
  | .lit value, _, h, x => by
      cases h
      exact (Attempt.Tests.test (P := x = value)).congr (by rw [Expr.eval.eq_def, Option.some.injEq, eq_comm])
  | .array items, _, h, x => by
      obtain ⟨es, hes, rfl⟩ := Option.map_eq_some_iff.mp h
      cases x with
      | array xs =>
          refine (Attempt.Tests.guarded fun hlen => latestAll_tests items hes xs ?_).congr ?_
          · rw [hlen, latestAll_length]
          · rw [Expr.eval_array_iff, latestAll_length, ← exprs?_length hes]
            simp only [Value.array.injEq, exists_eq_left']
            exact and_iff_right_of_imp Expr.evalAll_length
      | _ => exact .never fun h => by cases (Expr.eval_array_iff.mp h).choose_spec.1
  | .record arity fields, _, h, x => by
      obtain ⟨es, rfl, hlen, hslots⟩ := exists_of_record_expr? h
      cases x with
      | record xs =>
          refine (Attempt.Tests.guarded fun hxs => latestFields_tests fields hslots xs ?_).congr ?_
          · rw [List.length_replicate, hxs]
          · rw [Expr.eval_record_iff]
            simp only [Value.record.injEq, exists_eq_left']
            constructor
            · rintro ⟨hxs, hagree⟩
              refine (slotsAgree_iff (hlen.trans hxs.symm)).mp fun i e' he' => ?_
              by_cases hi : i ∈ fields.map (·.1)
              · exact hagree i hi e' he'
              · rw [fillSlots_unnamed hslots hi, List.getElem?_replicate] at he'
                split at he' <;> cases he'
            · intro hall
              have hxs := Expr.evalAll_length hall
              exact ⟨hxs.trans hlen, fun i _ => (slotsAgree_iff hxs.symm).mpr hall i⟩
      | _ => exact .never fun h => by cases (Expr.eval_record_iff.mp h).choose_spec.1
  | .alt index payload, _, h, x => by
      obtain ⟨e, he, rfl⟩ := Option.map_eq_some_iff.mp h
      cases x with
      | alt i y =>
          refine (Attempt.Tests.guarded fun _ => latest_tests payload he y).congr ?_
          rw [Expr.eval_alt_iff]
          simp
      | _ => exact .never fun h => by cases (Expr.eval_alt_iff.mp h).choose_spec.1

theorem latestAll_tests : (ms : List Match) → {es : List Expr} → exprs? ms = some es →
    (xs : List Value) → xs.length = ms.length →
    Attempt.Tests env (Expr.evalAll env es = some xs) (againstAll look (latestAll ms) xs env)
  | [], _, h, [], _ => by
      cases h
      exact .done rfl
  | m :: ms, _, h, x :: xs, hlen => by
      obtain ⟨e, he, h⟩ := Option.bind_eq_some_iff.mp h
      obtain ⟨es, hes, h⟩ := Option.bind_eq_some_iff.mp h
      cases h
      exact ((latest_tests m he x).andThen
        (latestAll_tests ms hes xs (Nat.succ.inj hlen))).congr Expr.evalAll_cons_iff.symm

theorem latestFields_tests : (ms : List (Nat × Match)) → {slots out : List (Option Expr)} →
    fillSlots ms slots = some out → (xs : List Value) → slots.length = xs.length →
    Attempt.Tests env
      (∀ i ∈ ms.map (·.1), ∀ e : Expr, out[i]? = some (some e) → e.eval env = xs[i]?)
      (againstFields look (latestFields ms) xs env)
  | [], _, _, _, _, _ => .done fun _ hi => nomatch hi
  | (i, m) :: ms, slots, out, h, xs, hlen => by
      obtain ⟨e, he, hi, hout⟩ := fillSlots_cons h
      have hrest := latestFields_tests ms hout xs (by rw [List.length_set, hlen])
      rw [latestFields]
      by_cases hmem : i ∈ ms.map (·.1)
      · rw [if_pos hmem]
        rw [List.map_cons]
        exact hrest.congr (List.forall_mem_cons.trans (and_iff_right_of_imp fun h => h i hmem)).symm
      · rw [if_neg hmem, againstFields]
        have hx : xs[i]? = some xs[i] := List.getElem?_eq_getElem (hlen ▸ hi)
        rw [hx]
        refine ((latest_tests m he _).andThen hrest).congr ?_
        have hslot : out[i]? = some (some e) := by
          rw [fillSlots_unnamed hout hmem, List.getElem?_set_self hi]
        rw [List.map_cons, List.forall_mem_cons, hslot]
        simp [hx]
end

mutual
/-- The tests of all patterns let only the value of the expression through. -/
theorem against_checks : (m : Match) → {e : Expr} → m.expr? = some e → (x : Value) →
    Attempt.Checks env (e.eval env = some x) (m.against look x env)
  | .wild, _, h, _ | .bind _, _, h, _ | .stringStart _, _, h, _ | .deref _ _, _, h, _ => nomatch h
  | .same v, _, h, x => (latest_tests look env (.same v) h x).checks
  | .lit value, _, h, x => (latest_tests look env (.lit value) h x).checks
  | .array items, _, h, x => by
      obtain ⟨es, hes, rfl⟩ := Option.map_eq_some_iff.mp h
      cases x with
      | array xs =>
          refine .guarded fun hlen => (againstAll_checks items hes xs hlen).imp fun hall => ?_
          exact Expr.eval_array_iff.mpr ⟨xs, rfl, hall⟩
      | _ => exact .inl rfl
  | .record arity fields, _, h, x => by
      obtain ⟨es, rfl, hlen, hslots⟩ := exists_of_record_expr? h
      cases x with
      | record xs =>
          refine .guarded fun hxs => ?_
          have hnone : SlotsAgree env xs (List.replicate arity none) := fun i e hslot => by
            rw [List.getElem?_replicate] at hslot
            split at hslot <;> cases hslot
          have hfields := againstFields_checks fields hslots xs (by rw [List.length_replicate, hxs]) hnone
          refine hfields.imp fun hagree => Expr.eval_record_iff.mpr ⟨xs, rfl, ?_⟩
          exact (slotsAgree_iff (hlen.trans hxs.symm)).mp hagree
      | _ => exact .inl rfl
  | .alt index payload, _, h, x => by
      obtain ⟨e, he, rfl⟩ := Option.map_eq_some_iff.mp h
      cases x with
      | alt i y =>
          refine .guarded fun hi => (against_checks payload he y).imp fun hy => ?_
          exact Expr.eval_alt_iff.mpr ⟨y, by rw [hi], hy⟩
      | _ => exact .inl rfl

theorem againstAll_checks : (ms : List Match) → {es : List Expr} → exprs? ms = some es →
    (xs : List Value) → xs.length = ms.length →
    Attempt.Checks env (Expr.evalAll env es = some xs) (againstAll look ms xs env)
  | [], _, h, [], _ => by
      cases h
      exact .inr ⟨rfl, rfl⟩
  | m :: ms, _, h, x :: xs, hlen => by
      obtain ⟨e, he, h⟩ := Option.bind_eq_some_iff.mp h
      obtain ⟨es, hes, h⟩ := Option.bind_eq_some_iff.mp h
      cases h
      refine (against_checks m he x).andThen fun hx => ?_
      exact (againstAll_checks ms hes xs (Nat.succ.inj hlen)).imp fun hxs =>
        Expr.evalAll_cons_iff.mpr ⟨hx, hxs⟩

theorem againstFields_checks : (ms : List (Nat × Match)) → {slots out : List (Option Expr)} →
    fillSlots ms slots = some out → (xs : List Value) → slots.length = xs.length →
    SlotsAgree env xs slots → Attempt.Checks env (SlotsAgree env xs out) (againstFields look ms xs env)
  | [], _, _, h, _, _, hslots => by
      cases h
      exact .inr ⟨hslots, rfl⟩
  | (i, m) :: ms, slots, out, h, xs, hlen, hslots => by
      obtain ⟨e, he, hi, hout⟩ := fillSlots_cons h
      rw [againstFields]
      have hx : xs[i]? = some xs[i] := List.getElem?_eq_getElem (hlen ▸ hi)
      rw [hx]
      refine (against_checks m he _).andThen fun hvalue => ?_
      refine againstFields_checks ms hout xs (by rw [List.length_set, hlen]) fun j e' he' => ?_
      by_cases hij : i = j
      · subst hij
        rw [List.getElem?_set_self hi] at he'
        cases he'
        rw [hvalue, hx]
      · rw [List.getElem?_set_ne hij] at he'
        exact hslots j e' he'
end

/-! ## Tests that read no facts -/

mutual
/-- A match for which there is an expression follows no references. -/
theorem touches_of_expr? : (m : Match) → {e : Expr} → m.expr? = some e → m.touches = []
  | .wild, _, h | .bind _, _, h | .stringStart _, _, h | .deref _ _, _, h => nomatch h
  | .same _, _, _ => by rw [touches]
  | .lit _, _, _ => by rw [touches]
  | .array items, _, h => by
      obtain ⟨es, hes, -⟩ := Option.map_eq_some_iff.mp h
      rw [touches, touches_of_exprs? items hes]
  | .record arity fields, _, h => by
      obtain ⟨es, -, -, hslots⟩ := exists_of_record_expr? h
      rw [touches, touches_of_fillSlots fields hslots]
  | .alt index payload, _, h => by
      obtain ⟨e, he, -⟩ := Option.map_eq_some_iff.mp h
      rw [touches, touches_of_expr? payload he]

theorem touches_of_exprs? : (ms : List Match) → {es : List Expr} → exprs? ms = some es →
    touchesAll ms = []
  | [], _, _ => by rw [touchesAll]
  | m :: ms, _, h => by
      obtain ⟨e, he, h⟩ := Option.bind_eq_some_iff.mp h
      obtain ⟨es, hes, -⟩ := Option.bind_eq_some_iff.mp h
      rw [touchesAll, touches_of_expr? m he, touches_of_exprs? ms hes]
      rfl

theorem touches_of_fillSlots : (ms : List (Nat × Match)) → {slots out : List (Option Expr)} →
    fillSlots ms slots = some out → touchesFields ms = []
  | [], _, _, _ => by rw [touchesFields]
  | (i, m) :: ms, _, _, h => by
      obtain ⟨e, he, -, hout⟩ := fillSlots_cons h
      rw [touchesFields, touches_of_expr? m he, touches_of_fillSlots ms hout]
      rfl
end

end Match

/-! ## Scans -/

section Scans

variable {σ : Type} [FactStore σ] {c : PlanContext} {k k' : Nat} {key : Match} {e : Expr}
  {env : Env} {fact : Fact}

/-- The frame in which a scan tests a fact: the registers of `n` variables have their values, and
the fact is loaded in the one above them. -/
def Frame.testing (n : Nat) (env : Env) (fact : Fact) : Frame :=
  (Frame.ofRegisters fun v => (env v).getD .unit).load n fact

/-- The tests of a scan let the key of a fact through. -/
def Match.letsThrough (r : Reading σ) (ev : Evaluation) (n : Nat) (key : Match) (env : Env)
    (fact : Fact) : Bool :=
  match (steps r (key.codeKey n (n + 1)).1 (Frame.testing n env fact)).run ev with
  | .ok (some _, _) => true
  | _ => false

/-- What the tests of a key let through is what matches it, in whatever store. -/
theorem Match.letsThrough_iff (he : key.expr? = some e) {ty : Ty} (hkey : key.Typed c ty k k')
    (henv : env.Typed c k) (hfit : ty.Conforms fact.key) (r : Reading σ) (ev : Evaluation) :
    key.letsThrough r ev c.vars.length env fact = true ↔
      ∃ env', (key.against (r.read ev.overlay) fact.key env).run = .ok (some env') := by
  have hfollows : Match.Follows r ev.world c (fun _ => True) key :=
    key.steps_code_of_touches (by rw [key.touches_of_expr? he]; exact fun _ hp => nomatch hp)
  have hregs : (Frame.ofRegisters fun v => (env v).getD .unit).Holds c (fun _ => True) env :=
    fun _ _ _ => rfl
  have hload := Frame.load_reaches hregs henv (Nat.le_refl _) (Nat.le_refl _) fact
  have hshows : Shows ev.world _ (steps r (key.codeKey c.vars.length (c.vars.length + 1)).1
      (Frame.testing c.vars.length env fact)) _ :=
    Match.shows_codeKey hfollows (if_pos rfl) hkey (fun _ _ => trivial) hfit (Nat.le_succ _)
      hload.holds hload.typed
  replace hshows := hshows ev rfl
  unfold Match.letsThrough
  generalize (steps r (key.codeKey c.vars.length (c.vars.length + 1)).1
    (Frame.testing c.vars.length env fact)).run ev = run at hshows ⊢
  rw [show ev.overlay = ev.world.overlay from rfl]
  cases hagainst : (key.against (r.read ev.world.overlay) fact.key env).run with
  | error x =>
      rw [hagainst] at hshows
      obtain rfl := hshows
      simp
  | ok found =>
      rw [hagainst] at hshows
      obtain ⟨f, ev', rfl, -, hrel⟩ := hshows
      cases hrel with
      | none => simp
      | some _ => simp

/-- Tests let through only what has the value of the expression. -/
theorem Match.seek_of_scan (he : key.expr? = some e) {ty : Ty} (hkey : key.Typed c ty k k')
    (henv : env.Typed c k) (hfit : ty.Conforms fact.key) (r : Reading σ) (ev : Evaluation)
    (h : key.letsThrough r ev c.vars.length env fact = true) : e.eval env = some fact.key := by
  obtain ⟨env', hagainst⟩ := (Match.letsThrough_iff he hkey henv hfit r ev).mp h
  exact (key.against_checks _ env he fact.key).holds hagainst

/-- Tests let through just what has the value of the expression, if no record pattern names a field
twice. -/
theorem Match.seek_iff_scan_of_distinct (he : key.expr? = some e) {ty : Ty}
    (hkey : key.Typed c ty k k') (henv : env.Typed c k) (hfit : ty.Conforms fact.key)
    (hdistinct : key.distinct = true) (r : Reading σ) (ev : Evaluation) :
    e.eval env = some fact.key ↔ key.letsThrough r ev c.vars.length env fact = true := by
  refine ⟨fun heval => ?_, Match.seek_of_scan he hkey henv hfit r ev⟩
  have htests := key.latest_tests (r.read ev.overlay) env he fact.key
  rw [key.latest_of_distinct hdistinct] at htests
  exact (Match.letsThrough_iff he hkey henv hfit r ev).mpr ⟨env, htests.iff.mp heval⟩

end Scans

/-! ## Stages of typed plans -/

/-- Values for the variables that some stages bind, and for no others. -/
structure Env.After (vars : List Variable) (before : List Stage) (env : Env) : Prop where
  bound : ∀ s ∈ before, ∀ v ∈ s.binds, ∃ x y, vars[v]? = some x ∧ env v = some y ∧ x.ty.Conforms y
  free : ∀ v, (∀ s ∈ before, v ∉ s.binds) → env v = none

theorem Env.After.typed {c : PlanContext} {k : Nat} {before : List Stage} {env : Env}
    (h : env.After c.vars before) (hbound : Bound k before) : env.Typed c k where
  bound v hv := by
    obtain ⟨s, hs, hmem⟩ := (hbound v).mp hv
    exact h.bound s hs v hmem
  free v hv := h.free v fun s hs hmem => absurd ((hbound v).mpr ⟨s, hs, hmem⟩) (Nat.not_lt.mpr hv)

/-- A stage among others has a type, between the variables that those before it bind and those
that it binds. -/
theorem Stage.TypedAll.stage {c : PlanContext} {first o : Outcome} {k k' : Nat}
    {done before after : List Stage} {s : Stage} (hbound : Bound k done)
    (h : Stage.TypedAll c first (before ++ s :: after) o k k') :
    ∃ o' i j, Bound i (done ++ before) ∧ s.Typed c o' i j := by
  induction before generalizing done first k with
  | nil =>
      obtain ⟨o', j, hs, -⟩ := h
      exact ⟨o', k, j, by rwa [List.append_nil], hs⟩
  | cons s' before ih =>
      obtain ⟨o', j, hs', h⟩ := h
      have hstage := ih (hbound.snoc hs') h
      rwa [List.append_assoc] at hstage

/-- The bodies of a plan: its own, and those of derived predicates. -/
def Plan.HasBody (plan : Plan) (b : Body) : Prop :=
  b = plan.main ∨ ∃ p, plan.derived.get? p = some b

theorem Bodies.Built.typed {s : Schema} {bodies : Bodies} (h : Bodies.Built s bodies) {p : Predicate}
    {b : Body} (hb : SortedMap.get? bodies p = some b) : ∃ bodied, b.Typed s bodied := by
  induction h with
  | empty => cases hb
  | @insert bodies q d b' _ _ _ _ hbody _ _ ih =>
      by_cases hq : p = q
      · subst hq
        rw [SortedMap.get?_insert_self] at hb
        cases hb
        exact ⟨_, hbody⟩
      · rw [SortedMap.get?_insert_of_ne hq] at hb
        exact ih hb

theorem Plan.Typed.body {s : Schema} {plan : Plan} (h : plan.Typed s) {b : Body}
    (hb : plan.HasBody b) : ∃ bodied, b.Typed s bodied := by
  rcases hb with rfl | ⟨p, hb⟩
  · exact ⟨_, h.main⟩
  · exact h.derived.typed hb

/-- Wherever a query that can be typed seeks facts by their key, and whatever values the variables
bound so far have: the keys sought are those that the tests of a scan would let through, if the key
pattern names no field of a record twice. In any case the tests let no others through; and the keys
sought are just those that match where the last pattern for each field counts. -/
theorem Query.seek_iff_scan {σ : Type} [FactStore σ] {schema : Schema} (hschema : schema.Registered)
    (hnarrow : schema.Narrow) {q : Query} {plan : Plan} (hplan : q.typed schema = .ok plan) {b : Body}
    (hb : plan.HasBody b) {before after : List Stage} {s : Stage}
    (hstages : b.stages = before ++ s :: after) {p : Predicate} {key value : Match}
    (hsupply : s.supply = .facts p false key value) {e : Expr} (he : key.expr? = some e)
    {d : Definition} (hd : schema.get? p = some d) {env : Env} (henv : env.After b.vars before)
    {fact : Fact} (hfit : d.key.Conforms fact.key) (r : Reading σ) (ev : Evaluation) :
    (key.letsThrough r ev b.vars.length env fact = true → e.eval env = some fact.key) ∧
      (key.distinct = true →
        (e.eval env = some fact.key ↔ key.letsThrough r ev b.vars.length env fact = true)) ∧
      ∀ look, e.eval env = some fact.key ↔
        (key.latest.against look fact.key env).run = .ok (some env) := by
  obtain ⟨bodied, hbody⟩ := (q.typed_sound hschema.coherent hnarrow hplan).body hb
  unfold Body.Typed at hbody
  rw [hstages] at hbody
  obtain ⟨o, i, j, hbound, m, hs, -⟩ := hbody.stage .nil
  rw [hsupply] at hs
  obtain ⟨-, d', i', hd', -, -, hkey, -⟩ := hs
  obtain rfl : d = d' := Option.some.inj (hd.symm.trans hd')
  have htyped : env.Typed ⟨schema, bodied, b.vars⟩ i := henv.typed hbound
  exact ⟨Match.seek_of_scan he hkey htyped hfit r ev,
    fun hdistinct => Match.seek_iff_scan_of_distinct he hkey htyped hfit hdistinct r ev,
    fun look => (key.latest_tests look env he fact.key).iff⟩

/-! ## Classes by name and line -/

/-- Classes, by name and line. -/
def classDecl : SchemaDecl where
  name := "example"
  version := 1
  inherits := []
  imports := []
  items := [.predicate "Class" (.record [⟨"name", .string, none⟩, ⟨"line", .nat, none⟩]) none none]

def classSchema : Schema := (Schema.builtin.register classDecl).toOption.getD .builtin

theorem classSchema_registered : classSchema.Registered := Schema.Registered.builtin.register_getD _

/-- The class `A` in line 1. -/
def classQuery : Query :=
  ⟨[⟨none, .predicate "example.Class" none (some (.fields [("line", .nat 1), ("name", .string "A")]))
    none⟩]⟩

/-- A class called `A`, and called `B`, in line 1. -/
def twiceNamedQuery : Query :=
  ⟨[⟨none, .predicate "example.Class" none
    (some (.fields [("name", .string "A"), ("name", .string "B"), ("line", .nat 1)])) none⟩]⟩

def classPredicate : Predicate := ⟨"example.Class", 1⟩

/-- The class of a name in line 1. -/
def classFact (name : String) : Fact :=
  ⟨⟨1024⟩, classPredicate, .record [.string name, .nat 1], .unit⟩

theorem classFact_conforms (name : String) :
    ∃ d, classSchema.get? classPredicate = some d ∧ d.key.Conforms (classFact name).key := by
  have hkey : ∃ d ∈ classSchema.predicates.values, classSchema.get? classPredicate = some d ∧
      d.key = .record [⟨"name", .string, none⟩, ⟨"line", .nat, none⟩] := by decide +kernel
  obtain ⟨d, -, hd, hkey⟩ := hkey
  refine ⟨d, hd, hkey ▸ Ty.conforms_record_iff.mpr ⟨_, rfl, .cons ?_ (.cons ?_ .nil)⟩⟩
  · exact Ty.conforms_string_iff.mpr ⟨name, rfl⟩
  · exact Ty.conforms_nat_iff.mpr ⟨1, rfl⟩

/-- A reading of no facts at all. -/
def classReading : Reading MemoryStore := ⟨MemoryStore.empty, classSchema, classSchema, .stored⟩

def classEvaluation : Evaluation := ⟨∅, ∅, ⟨1024⟩, 0, none⟩

/-- The key by which the facts of classes are sought that a query starts with. -/
def Plan.sought? (plan : Plan) : Option (Match × Expr) :=
  match plan.main.stages with
  | ⟨.facts p false key _, _⟩ :: _ =>
    if p = classPredicate then key.expr?.map fun e => (key, e) else none
  | _ => none

theorem Plan.exists_of_sought? {plan : Plan} {key : Match} {e : Expr}
    (h : plan.sought? = some (key, e)) : key.expr? = some e ∧ ∃ value bind after,
      plan.main.stages = ⟨.facts classPredicate false key value, bind⟩ :: after := by
  unfold sought? at h
  split at h
  · rename_i p key' value bind after hstages
    split at h
    · rename_i hp
      obtain ⟨e', he, h⟩ := Option.map_eq_some_iff.mp h
      cases h
      exact ⟨he, value, bind, after, hp ▸ hstages⟩
    · cases h
  · cases h

theorem Query.seek_iff_scan_class :
    ∃ plan key e, classQuery.typed classSchema = .ok plan ∧ plan.sought? = some (key, e) ∧
      (e.eval .empty = some (classFact "A").key ↔
        key.letsThrough classReading classEvaluation plan.main.vars.length .empty (classFact "A") =
          true) := by
  have hsought : ((classQuery.typed classSchema).toOption.bind Plan.sought?).any
      (·.1.distinct) = true := by decide +kernel
  obtain ⟨⟨key, e⟩, hsought, hdistinct⟩ := (Option.any_eq_true _ _).mp hsought
  obtain ⟨plan, hplan, hkey⟩ := Option.bind_eq_some_iff.mp hsought
  obtain ⟨he, value, bind, after, hstages⟩ := plan.exists_of_sought? hkey
  obtain ⟨d, hd, hfit⟩ := classFact_conforms "A"
  refine ⟨plan, key, e, Outcome.mem_toOption_iff.mp hplan, hkey, ?_⟩
  rw [← List.nil_append (_ :: after)] at hstages
  exact (Query.seek_iff_scan classSchema_registered (by unfold Schema.Narrow; decide +kernel)
    (Outcome.mem_toOption_iff.mp hplan) (.inl rfl) hstages rfl he hd
    ⟨fun _ hs => (nomatch hs), fun _ _ => rfl⟩ hfit classReading classEvaluation).2.1 hdistinct

/-- Of a class called `A` and called `B` the one called `B` is sought, which the tests of a scan do
not let through. -/
theorem Query.seek_forgets_first_name :
    (∃ d, classSchema.get? classPredicate = some d ∧ d.key.Conforms (classFact "B").key) ∧
    ∃ plan key e, twiceNamedQuery.typed classSchema = .ok plan ∧ plan.sought? = some (key, e) ∧
      e.eval .empty = some (classFact "B").key ∧
      key.letsThrough classReading classEvaluation plan.main.vars.length .empty (classFact "B") =
        false := by
  have hsought : (twiceNamedQuery.typed classSchema).toOption.any (fun plan =>
      plan.sought?.any fun ke => decide (ke.2.eval .empty = some (classFact "B").key) &&
        !ke.1.letsThrough classReading classEvaluation plan.main.vars.length .empty
          (classFact "B")) = true := by decide +kernel
  obtain ⟨plan, hplan, hsought⟩ := (Option.any_eq_true _ _).mp hsought
  obtain ⟨⟨key, e⟩, hkey, h⟩ := (Option.any_eq_true _ _).mp hsought
  rw [Bool.and_eq_true, decide_eq_true_eq, Bool.not_eq_true'] at h
  exact ⟨classFact_conforms "B", plan, key, e, Outcome.mem_toOption_iff.mp hplan, hkey, h⟩

end Factbase
