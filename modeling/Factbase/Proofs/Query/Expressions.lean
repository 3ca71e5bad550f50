import Factbase.Proofs.Query.Matching

/-!
# Code of expressions

An expression that is typed over variables with values has a value, of
its type (`Expr.eval_conforms`), and its code computes it into a register
(`Expr.steps_code`). A match for which there is an expression has the type
of that expression and binds nothing (`Match.expr?_typed`).
-/

namespace Factbase

variable {σ : Type} [FactStore σ] {r : Reading σ} {c : PlanContext} {M : Nat → Prop} {env : Env}
variable {k : Nat}

/-! ## Values -/

namespace Expr

mutual
/-- A typed expression over variables with values has a value of its type. -/
theorem eval_conforms (henv : env.Typed c k) :
    (e : Expr) → {ty : Ty} → e.Typed c ty k → ∃ v, e.eval env = some v ∧ ty.Conforms v
  | .lit value, _, ⟨hfit, _⟩ => ⟨value, rfl, hfit⟩
  | .var v, ty, ⟨hv, x, hx, hty⟩ => by
      obtain ⟨y, value, hy, hvalue, hfit⟩ := henv.bound v hv
      obtain rfl : x = y := Option.some.inj (hx.symm.trans hy)
      exact ⟨value, hvalue, (Ty.conforms_of_compatible hty value).mp hfit⟩
  | .array items, _, ⟨elem, hty, hitems⟩ => by
      obtain ⟨vs, hvs, hall⟩ := evalAll_conform henv items hitems
      subst hty
      refine ⟨.array vs, ?_, Ty.conforms_array_iff.mpr ⟨vs, rfl, hall⟩⟩
      rw [eval, hvs]
      rfl
  | .record fields, _, ⟨all, hty, hfields⟩ => by
      obtain ⟨vs, hvs, hall⟩ := evalFields_conform henv fields hfields
      subst hty
      refine ⟨.record vs, ?_, Ty.conforms_record_iff.mpr ⟨vs, rfl, hall⟩⟩
      rw [eval, hvs]
      rfl
  | .alt index payload, _, ⟨alts, a, hty, ha, hpayload⟩ => by
      obtain ⟨v, hv, hfit⟩ := eval_conforms henv payload hpayload
      subst hty
      refine ⟨.alt index v, ?_, Ty.conforms_sum_iff.mpr ⟨index, v, rfl, a, ha, hfit⟩⟩
      rw [eval, hv]
      rfl

theorem evalAll_conform (henv : env.Typed c k) :
    (es : List Expr) → {elem : Ty} → TypedAll c es elem k →
      ∃ vs, evalAll env es = some vs ∧ ∀ v ∈ vs, elem.Conforms v
  | [], _, _ => ⟨[], rfl, fun _ hv => nomatch hv⟩
  | e :: es, _, ⟨he, hes⟩ => by
      obtain ⟨v, hv, hfit⟩ := eval_conforms henv e he
      obtain ⟨vs, hvs, hall⟩ := evalAll_conform henv es hes
      refine ⟨v :: vs, ?_, List.forall_mem_cons.mpr ⟨hfit, hall⟩⟩
      rw [evalAll, hv, hvs]
      rfl

theorem evalFields_conform (henv : env.Typed c k) :
    (es : List Expr) → {fs : List Field} → TypedFields c es fs k →
      ∃ vs, evalAll env es = some vs ∧ Ty.ConformAll fs vs
  | [], [], _ => ⟨[], rfl, .nil⟩
  | e :: es, _ :: _, ⟨he, hes⟩ => by
      obtain ⟨v, hv, hfit⟩ := eval_conforms henv e he
      obtain ⟨vs, hvs, hall⟩ := evalFields_conform henv es hes
      refine ⟨v :: vs, ?_, .cons hfit hall⟩
      rw [evalAll, hv, hvs]
      rfl
end

mutual
/-- The value of an expression without variables is the same in any environment. -/
theorem eval_of_constant? : (e : Expr) → {v : Value} → e.constant? = some v → e.eval env = some v
  | .lit _, _, h => h
  | .var _, _, h => nomatch h
  | .array items, v, h => by
      obtain ⟨vs, hvs, rfl⟩ := Option.map_eq_some_iff.mp h
      rw [eval, evalAll_of_constants? items hvs]
      rfl
  | .record fields, v, h => by
      obtain ⟨vs, hvs, rfl⟩ := Option.map_eq_some_iff.mp h
      rw [eval, evalAll_of_constants? fields hvs]
      rfl
  | .alt index payload, v, h => by
      obtain ⟨w, hw, rfl⟩ := Option.map_eq_some_iff.mp h
      rw [eval, eval_of_constant? payload hw]
      rfl

theorem evalAll_of_constants? : (es : List Expr) → {vs : List Value} → constants? es = some vs →
    evalAll env es = some vs
  | [], _, h => h
  | e :: es, vs, h => by
      obtain ⟨v, hv, h⟩ := Option.bind_eq_some_iff.mp h
      obtain ⟨rest, hrest, h⟩ := Option.bind_eq_some_iff.mp h
      cases h
      rw [evalAll, eval_of_constant? e hv, evalAll_of_constants? es hrest]
      rfl
end

theorem TypedAll.each {es : List Expr} {elem : Ty} (h : TypedAll c es elem k) :
    ∀ e ∈ es, ∃ ty : Ty, e.Typed c ty k := by
  induction es with
  | nil => exact fun _ he => nomatch he
  | cons e es ih => exact List.forall_mem_cons.mpr ⟨⟨elem, h.1⟩, ih h.2⟩

theorem TypedFields.each {es : List Expr} {fs : List Field} (h : TypedFields c es fs k) :
    ∀ e ∈ es, ∃ ty : Ty, e.Typed c ty k := by
  induction es generalizing fs with
  | nil => exact fun _ he => nomatch he
  | cons e es ih =>
      cases fs with
      | nil => cases h
      | cons f fs => exact List.forall_mem_cons.mpr ⟨⟨f.ty, h.1⟩, ih h.2⟩

/-! ## The code of an expression -/

mutual
/-- The value of an expression is in a register that later code leaves alone. -/
theorem code_registers : (e : Expr) → {ty : Ty} → {next : Nat} → e.Typed c ty k →
    c.vars.length ≤ next → next ≤ (e.code next).2.2 ∧
      Frame.InUse c k (e.code next).2.2 (e.code next).2.1
  | .lit _, _, next, _, hnext => ⟨Nat.le_succ next, .inr ⟨hnext, Nat.lt_succ_self next⟩⟩
  | .var _, _, next, ⟨hv, _⟩, _ => ⟨Nat.le_refl next, .inl hv⟩
  | .array items, _, next, ⟨_, _, hitems⟩, hnext => by
      obtain ⟨hle, -⟩ := codeAll_registers items hitems.each hnext
      rw [code]
      exact ⟨Nat.le_succ_of_le hle, .inr ⟨Nat.le_trans hnext hle, Nat.lt_succ_self _⟩⟩
  | .record fields, _, next, ⟨_, _, hfields⟩, hnext => by
      obtain ⟨hle, -⟩ := codeAll_registers fields hfields.each hnext
      rw [code]
      exact ⟨Nat.le_succ_of_le hle, .inr ⟨Nat.le_trans hnext hle, Nat.lt_succ_self _⟩⟩
  | .alt _ payload, _, next, ⟨_, _, _, _, hpayload⟩, hnext => by
      obtain ⟨hle, -⟩ := code_registers payload hpayload hnext
      rw [code]
      exact ⟨Nat.le_succ_of_le hle, .inr ⟨Nat.le_trans hnext hle, Nat.lt_succ_self _⟩⟩

theorem codeAll_registers : (es : List Expr) → {next : Nat} → (∀ e ∈ es, ∃ ty : Ty, e.Typed c ty k) →
    c.vars.length ≤ next → next ≤ (codeAll es next).2.2 ∧
      ∀ reg ∈ (codeAll es next).2.1, Frame.InUse c k (codeAll es next).2.2 reg
  | [], next, _, _ => ⟨Nat.le_refl next, fun _ hreg => nomatch hreg⟩
  | e :: es, next, hes, hnext => by
      obtain ⟨⟨ty, he⟩, hrest⟩ := List.forall_mem_cons.mp hes
      obtain ⟨hle, hreg⟩ := code_registers e he hnext
      obtain ⟨hle', hregs⟩ := codeAll_registers es hrest (Nat.le_trans hnext hle)
      rw [codeAll]
      exact ⟨Nat.le_trans hle hle',
        List.forall_mem_cons.mpr ⟨hreg.mono (Nat.le_refl k) hle', hregs⟩⟩
end

mutual
theorem isStraight_code : (e : Expr) → (next : Nat) → ∀ i ∈ (e.code next).1, i.isStraight = true
  | .lit _, _ => by simp [code, Instr.isStraight]
  | .var _, _ => by simp [code]
  | .array items, next => by
      have := isStraight_codeAll items next
      simp only [code, List.mem_append, List.mem_singleton]
      rintro i (hi | rfl)
      · exact this i hi
      · rfl
  | .record fields, next => by
      have := isStraight_codeAll fields next
      simp only [code, List.mem_append, List.mem_singleton]
      rintro i (hi | rfl)
      · exact this i hi
      · rfl
  | .alt _ payload, next => by
      have := isStraight_code payload next
      simp only [code, List.mem_append, List.mem_singleton]
      rintro i (hi | rfl)
      · exact this i hi
      · rfl

theorem isStraight_codeAll : (es : List Expr) → (next : Nat) →
    ∀ i ∈ (codeAll es next).1, i.isStraight = true
  | [], _ => by simp [codeAll]
  | e :: es, next => by
      rw [codeAll]
      exact List.forall_mem_append.mpr ⟨isStraight_code e next, isStraight_codeAll es _⟩
end

/-- A construction puts its value into the register after the code of its parts. -/
theorem steps_construct {code : List Instr} (i : Instr) {f f₁ : Frame} {next dst : Nat} {v : Value}
    (hcode : steps r code f = pure f₁) (hreach : f.Reaches c M k k next f₁ env)
    (hi : i.step r f₁ = pure (f₁.put dst v)) (hdst : c.vars.length ≤ dst) (hnext : next ≤ dst) :
    ∃ f', steps r (code ++ [i]) f = pure f' ∧ f.Reaches c M k k next f' env ∧ f'.regs dst = v := by
  refine ⟨f₁.put dst v, ?_, ?_, if_pos rfl⟩
  · rw [steps_append, hcode, pure_bind, Match.steps_cons_pure hi, steps]
  · exact hreach.trans (Frame.put_reaches hreach.holds hreach.typed hdst hnext v) (Nat.le_refl k)
      (Nat.le_refl next)

mutual
/-- The code of an expression computes its value. -/
theorem steps_code (henv : env.Typed c k) :
    (e : Expr) → {ty : Ty} → {next : Nat} → {f : Frame} → e.Typed c ty k →
    (∀ v ∈ e.mentions, M v) → c.vars.length ≤ next → f.Holds c M env →
    ∃ f', steps r (e.code next).1 f = pure f' ∧ f.Reaches c M k k next f' env ∧
      e.eval env = some (f'.regs (e.code next).2.1)
  | .lit value, _, next, f, _, _, hnext, hf => by
      refine ⟨f.put next value, rfl, Frame.put_reaches hf henv hnext (Nat.le_refl next) value, ?_⟩
      exact congrArg some (if_pos rfl).symm
  | .var v, _, next, f, ⟨hv, _⟩, hM, _, hf => by
      obtain ⟨x, value, hx, hvalue, -⟩ := henv.bound v hv
      refine ⟨f, rfl, .refl hf henv, ?_⟩
      have hreg := hf v (List.getElem?_eq_some_iff.mp hx).1 (hM v (List.mem_singleton_self v))
      rw [eval, code]
      dsimp only
      rw [hreg, hvalue]
      rfl
  | .array items, _, next, f, ⟨_, _, hitems⟩, hM, hnext, hf => by
      obtain ⟨f₁, hcode, hreach, hvs⟩ := steps_codeAll henv items hitems.each hM hnext hf
      obtain ⟨hle, -⟩ := codeAll_registers items hitems.each hnext
      rw [code, eval, hvs]
      obtain ⟨f', hsteps, hreach', hv⟩ := steps_construct
        (.makeArray (codeAll items next).2.1 (codeAll items next).2.2) hcode hreach rfl
        (Nat.le_trans hnext hle) hle
      exact ⟨f', hsteps, hreach', congrArg some hv.symm⟩
  | .record fields, _, next, f, ⟨_, _, hfields⟩, hM, hnext, hf => by
      obtain ⟨f₁, hcode, hreach, hvs⟩ := steps_codeAll henv fields hfields.each hM hnext hf
      obtain ⟨hle, -⟩ := codeAll_registers fields hfields.each hnext
      rw [code, eval, hvs]
      obtain ⟨f', hsteps, hreach', hv⟩ := steps_construct
        (.makeRecord (codeAll fields next).2.1 (codeAll fields next).2.2) hcode hreach rfl
        (Nat.le_trans hnext hle) hle
      exact ⟨f', hsteps, hreach', congrArg some hv.symm⟩
  | .alt index payload, _, next, f, ⟨_, _, _, _, hpayload⟩, hM, hnext, hf => by
      obtain ⟨f₁, hcode, hreach, hv⟩ := steps_code henv payload hpayload hM hnext hf
      obtain ⟨hle, -⟩ := code_registers payload hpayload hnext
      rw [code, eval, hv]
      obtain ⟨f', hsteps, hreach', hv'⟩ := steps_construct
        (.makeAlt index (payload.code next).2.1 (payload.code next).2.2) hcode hreach rfl
        (Nat.le_trans hnext hle) hle
      exact ⟨f', hsteps, hreach', congrArg some hv'.symm⟩

theorem steps_codeAll (henv : env.Typed c k) :
    (es : List Expr) → {next : Nat} → {f : Frame} → (∀ e ∈ es, ∃ ty : Ty, e.Typed c ty k) →
    (∀ v ∈ mentionsAll es, M v) → c.vars.length ≤ next → f.Holds c M env →
    ∃ f', steps r (codeAll es next).1 f = pure f' ∧ f.Reaches c M k k next f' env ∧
      evalAll env es = some ((codeAll es next).2.1.map f'.regs)
  | [], next, f, _, _, _, hf => ⟨f, rfl, .refl hf henv, rfl⟩
  | e :: es, next, f, hes, hM, hnext, hf => by
      obtain ⟨⟨ty, he⟩, hrest⟩ := List.forall_mem_cons.mp hes
      obtain ⟨hMe, hMes⟩ := List.forall_mem_append.mp hM
      obtain ⟨hle, hreg⟩ := code_registers e he hnext
      obtain ⟨f₁, hcode, hreach, hv⟩ := steps_code henv e he hMe hnext hf
      obtain ⟨f₂, hcode', hreach', hvs⟩ :=
        steps_codeAll henv es hrest hMes (Nat.le_trans hnext hle) hreach.holds
      refine ⟨f₂, ?_, hreach.trans hreach' (Nat.le_refl k) hle, ?_⟩
      · rw [codeAll]
        dsimp only
        rw [steps_append, hcode, pure_bind, hcode']
      · -- the code of the others leaves the register of the first one alone
        rw [evalAll, hv, hvs, codeAll, ← (hreach'.keeps _ hreg).1]
        rfl
end

end Expr

/-! ## Matches for one value -/

namespace Match

/-- Expressions in the slots of a record have the types of its fields. They mention variables
that count. -/
structure SlotsTyped (c : PlanContext) (M : Nat → Prop) (all : List Field) (k : Nat)
    (slots : List (Option Expr)) : Prop where
  length : slots.length = all.length
  typed : ∀ (i : Nat) (f : Field) (e : Expr), all[i]? = some f → slots[i]? = some (some e) →
    e.Typed c f.ty k ∧ ∀ v ∈ e.mentions, M v

theorem SlotsTyped.exprs {all : List Field} {slots : List (Option Expr)} {es : List Expr}
    (h : SlotsTyped c M all k slots) (hes : slots.mapM id = some es) :
    Expr.TypedFields c es all k ∧ ∀ v ∈ Expr.mentionsAll es, M v := by
  induction slots generalizing all es with
  | nil =>
      cases hes
      cases all with
      | nil => exact ⟨trivial, fun _ hv => nomatch hv⟩
      | cons f all => exact absurd h.length (by simp)
  | cons slot slots ih =>
      cases all with
      | nil => exact absurd h.length (by simp)
      | cons f all =>
          rw [List.mapM_cons] at hes
          obtain ⟨e, he, hes⟩ := Option.bind_eq_some_iff.mp hes
          obtain ⟨rest, hrest, hes⟩ := Option.bind_eq_some_iff.mp hes
          cases hes
          obtain ⟨htyped, hM⟩ := h.typed 0 f e rfl (congrArg some he)
          obtain ⟨hall, hMs⟩ := ih ⟨by simpa using h.length, fun i => h.typed (i + 1)⟩ hrest
          exact ⟨⟨htyped, hall⟩, List.forall_mem_append.mpr ⟨hM, hMs⟩⟩

mutual
/-- Where there is an expression for a match, the match binds nothing, and the expression
has its type and mentions no other variables. -/
theorem expr?_typed : (m : Match) → {ty : Ty} → {k k' : Nat} → {e : Expr} → m.Typed c ty k k' →
    (∀ v ∈ m.mentions, M v) → m.expr? = some e → k' = k ∧ e.Typed c ty k ∧ ∀ v ∈ e.mentions, M v
  | .wild, _, _, _, _, _, _, h | .bind _, _, _, _, _, _, _, h | .stringStart _, _, _, _, _, _, _, h
  | .deref _ _, _, _, _, _, _, _, h => nomatch h
  | .same v, _, _, _, _, ⟨hk, hv⟩, hM, h => by
      cases h
      exact ⟨hk, hv, hM⟩
  | .lit value, _, _, _, _, ⟨hk, hfit⟩, _, h => by
      cases h
      exact ⟨hk, hfit, fun _ hv => nomatch hv⟩
  | .array items, _, _, _, e, ⟨elem, hty, hitems⟩, hM, h => by
      obtain ⟨es, hes, rfl⟩ := Option.map_eq_some_iff.mp h
      obtain ⟨hk, htyped, hMs⟩ := exprs?_typed items hitems hM hes
      exact ⟨hk, ⟨elem, hty, htyped⟩, hMs⟩
  | .record arity fields, _, k, _, e, ⟨all, hty, hlen, hfields⟩, hM, h => by
      obtain ⟨slots, hslots, h⟩ := Option.bind_eq_some_iff.mp h
      obtain ⟨es, hes, h⟩ := Option.bind_eq_some_iff.mp h
      cases h
      have hnone : SlotsTyped c M all k (List.replicate arity none) := by
        refine ⟨by rw [List.length_replicate, hlen], fun i f e _ hslot => ?_⟩
        rw [List.getElem?_replicate] at hslot
        split at hslot <;> cases hslot
      obtain ⟨hk, hfilled⟩ := fillSlots_typed fields hfields hM hnone hslots
      obtain ⟨htyped, hMs⟩ := hfilled.exprs hes
      exact ⟨hk, ⟨all, hty, htyped⟩, hMs⟩
  | .alt index payload, _, _, _, e, ⟨alts, a, hty, ha, hpayload⟩, hM, h => by
      obtain ⟨e', he', rfl⟩ := Option.map_eq_some_iff.mp h
      obtain ⟨hk, htyped, hMs⟩ := expr?_typed payload hpayload hM he'
      exact ⟨hk, ⟨alts, a, hty, ha, htyped⟩, hMs⟩

theorem exprs?_typed : (ms : List Match) → {elem : Ty} → {k k' : Nat} → {es : List Expr} →
    TypedAll c ms elem k k' → (∀ v ∈ mentionsAll ms, M v) → exprs? ms = some es →
    k' = k ∧ Expr.TypedAll c es elem k ∧ ∀ v ∈ Expr.mentionsAll es, M v
  | [], _, _, _, _, hms, _, h => by
      cases h
      exact ⟨hms, trivial, fun _ hv => nomatch hv⟩
  | m :: ms, _, _, _, es, ⟨j, hm, hms⟩, hM, h => by
      obtain ⟨hMm, hMms⟩ := List.forall_mem_append.mp hM
      obtain ⟨e, he, h⟩ := Option.bind_eq_some_iff.mp h
      obtain ⟨rest, hrest, h⟩ := Option.bind_eq_some_iff.mp h
      cases h
      obtain ⟨rfl, htyped, hMe⟩ := expr?_typed m hm hMm he
      obtain ⟨hk, hall, hMs⟩ := exprs?_typed ms hms hMms hrest
      exact ⟨hk, ⟨htyped, hall⟩, List.forall_mem_append.mpr ⟨hMe, hMs⟩⟩

theorem fillSlots_typed : (ms : List (Nat × Match)) → {all : List Field} → {k k' : Nat} →
    {slots out : List (Option Expr)} → TypedFields c ms all k k' →
    (∀ v ∈ mentionsFields ms, M v) → SlotsTyped c M all k slots →
    fillSlots ms slots = some out → k' = k ∧ SlotsTyped c M all k out
  | [], _, _, _, _, _, hms, _, hslots, h => by
      cases h
      exact ⟨hms, hslots⟩
  | (i, m) :: ms, all, k, _, slots, out, ⟨f, j, hf, hm, hms⟩, hM, hslots, h => by
      obtain ⟨hMm, hMms⟩ := List.forall_mem_append.mp hM
      obtain ⟨e, he, h⟩ := Option.bind_eq_some_iff.mp h
      obtain ⟨_, -, h⟩ := Option.bind_eq_some_iff.mp h
      obtain ⟨rfl, htyped⟩ := expr?_typed m hm hMm he
      refine fillSlots_typed ms hms hMms ⟨by rw [List.length_set, hslots.length], ?_⟩ h
      intro i' f' e' hf' hslot
      by_cases hi : i = i'
      · subst hi
        rw [List.getElem?_set_self'] at hslot
        obtain rfl : f = f' := Option.some.inj (hf.symm.trans hf')
        obtain ⟨_, -, hslot⟩ := Option.map_eq_some_iff.mp hslot
        cases hslot
        exact htyped
      · rw [List.getElem?_set_ne hi] at hslot
        exact hslots.typed i' f' e' hf' hslot
end

end Match

end Factbase
