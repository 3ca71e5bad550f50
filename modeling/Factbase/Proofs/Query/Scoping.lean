import Factbase.Proofs.Query.Derivations
import Factbase.Proofs.Query.KeySearch
import Factbase.Proofs.Query.Occurrences
import Factbase.Proofs.Query.Programs

/-!
# Typing keeps variables in order

In every body that typing gives, of a query or of a derived predicate, the
occurrences of variables are in order (`Body.Scoped`): each variable is
bound once, before it is used, and at places of compatible types only
(`Query.typed_binds_once`). This holds for any schema at all, also for one
that no registration leads to.

Typing an expression leaves everything as it is, and all that occurs in it
is there (`Expresses.uses`). Each other step adds the variables that its result
binds to those that are known, one after another, and the bodies that it
adds are in order themselves (`TypingContext.Binds`).
-/

namespace Factbase

namespace TypingContext

open Check Match

variable {c : TypingContext} {t t' : Typing}

/-! ## Expressions -/

/-- All variables in an expression at a place are known, at compatible types. -/
def Uses (t : Typing) (ty : Option Ty) (e : Expr) : Prop := ∀ o ∈ e.occurrences ty, o.Used t.vars

/-- All variables in expressions at the places of fields are known, at compatible types. -/
def UsesFields (t : Typing) (fields : List Field) (es : List Expr) : Prop :=
  ∀ o ∈ Expr.occurrencesFields es fields, o.Used t.vars

theorem uses_lit {ty : Option Ty} {value : Value} : Uses t ty (.lit value) := by
  intro o ho
  rw [Expr.occurrences] at ho
  cases ho

theorem uses_array {elem : Ty} {es : List Expr}
    (h : ∀ o ∈ Expr.occurrencesAll es (some elem), o.Used t.vars) :
    Uses t (some (.array elem)) (.array es) := by
  intro o ho
  rw [Expr.occurrences] at ho
  exact h o ho

theorem uses_record {fields : List Field} {es : List Expr} (h : UsesFields t fields es) :
    Uses t (some (.record fields)) (.record es) := by
  intro o ho
  rw [Expr.occurrences] at ho
  exact h o ho

theorem uses_alt {alts : List Field} {ty : Ty} {index : UInt32} {e : Expr}
    (hty : alts[index.toNat]?.map (·.ty) = some ty) (h : Uses t (some ty) e) :
    Uses t (some (.sum alts)) (.alt index e) := by
  intro o ho
  rw [Expr.occurrences, Ty.alternativesAt, hty] at ho
  exact h o ho

theorem usesFields_cons {f : Field} {fields : List Field} {e : Expr} {es : List Expr}
    (he : Uses t (some f.ty) e) (hes : UsesFields t fields es) :
    UsesFields t (f :: fields) (e :: es) := by
  intro o ho
  rw [Expr.occurrencesFields] at ho
  exact (List.mem_append.mp ho).elim (he o) (hes o)

theorem usesAll_cons {elem : Ty} {e : Expr} {es : List Expr} (he : Uses t (some elem) e)
    (hes : ∀ o ∈ Expr.occurrencesAll es (some elem), o.Used t.vars) :
    ∀ o ∈ Expr.occurrencesAll (e :: es) (some elem), o.Used t.vars := by
  intro o ho
  rw [Expr.occurrencesAll] at ho
  exact (List.mem_append.mp ho).elim (he o) (hes o)

theorem usesFields_nil : UsesFields t [] [] := fun o ho => by cases ho

mutual
/-- What occurs in an expression is known, at a type compatible with the one that was expected or
else found. -/
theorem Expresses.uses {p : Pattern} {expected : Option Ty} {e : Expr} {ty : Ty} :
    Expresses t p expected e ty → Uses t (some (expected.getD ty)) e
  | .noExpand h => h.uses
  | .var hlocate hcompatible => by
      obtain ⟨x, hx, rfl⟩ := locate?_some hlocate
      intro o ho
      rw [Expr.occurrences] at ho
      obtain rfl := List.mem_singleton.mp ho
      exact ⟨rfl, x, _, hx, rfl, compatible_getD hcompatible⟩
  | .lit .. => uses_lit
  | .array h => uses_array h.uses
  | .items h hs => uses_array (usesAll_cons h.uses hs.uses)
  | .record _ h => uses_record h.uses
  | .fields h => uses_record h.uses
  | .alt halt hindex h => uses_alt (by rw [hindex, Field.locate?_some halt]; rfl) h.uses
  | .tuple h => uses_record h.uses

theorem ExpressesAll.uses {elem : Ty} {ps : List Pattern} {es : List Expr} :
    ExpressesAll t elem ps es → ∀ o ∈ Expr.occurrencesAll es (some elem), o.Used t.vars
  | .nil => fun o ho => by cases ho
  | .cons h hs => usesAll_cons h.uses hs.uses

theorem ExpressesFields.uses {given : List (String × Pattern)} {fields : List Field}
    {es : List Expr} : ExpressesFields t given fields es → UsesFields t fields es
  | .nil => usesFields_nil
  | .given _ h hs => usesFields_cons h.uses hs.uses
  | .default _ _ hs => usesFields_cons uses_lit hs.uses

theorem ExpressesInOrder.uses {fields : List Field} {ps : List Pattern} {es : List Expr} :
    ExpressesInOrder t fields ps es → UsesFields t fields es
  | .nil => usesFields_nil
  | .cons h hs => usesFields_cons h.uses hs.uses

theorem ExpressesGiven.uses {seen : List String} {given : List (String × Pattern)}
    {found : List (Field × Expr)} : ExpressesGiven t seen given found →
      UsesFields t (found.map (·.1)) (found.map (·.2))
  | .nil => usesFields_nil
  | .cons _ h hs => usesFields_cons h.uses hs.uses
end

/-! ## What a step binds -/

/-- Entering predicates adds only bodies in which variables are in order. -/
def DerivesScoped (c : TypingContext) : Prop :=
  ∀ d bodies bodies', c.derive d bodies = .ok bodies' →
    Bodies.Scoped c.schema bodies → Bodies.Scoped c.schema bodies'

/-- What a step of typing does that finds some occurrences of variables. -/
structure Binds (c : TypingContext) (t : Typing) (os : List Occurrence) (t' : Typing) : Prop where
  vars : Scoped t.vars os t'.vars
  bodies : Bodies.Scoped c.schema t.bodies → Bodies.Scoped c.schema t'.bodies

variable {t₁ : Typing} {os os' : List Occurrence}

theorem Binds.append (h : c.Binds t os t₁) (h' : c.Binds t₁ os' t') : c.Binds t (os ++ os') t' :=
  ⟨h.vars.append h'.vars, h'.bodies ∘ h.bodies⟩

theorem Binds.none (hvars : t'.vars = t.vars) (hbodies : t'.bodies = t.bodies) : c.Binds t [] t' :=
  ⟨hvars ▸ .nil _, fun h => hbodies ▸ h⟩

theorem Binds.refl (c : TypingContext) (t : Typing) : c.Binds t [] t := .none rfl rfl

theorem Binds.of_uses {ty : Option Ty} {e : Expr} (h : Uses t ty e) :
    c.Binds t (e.occurrences ty) t :=
  ⟨.of_used h, id⟩

/-! ## Patterns -/

theorem enter_binds (hc : c.DerivesScoped) {d : Definition} {bodies : Bodies}
    (h : c.derive d t.bodies = .ok bodies) : c.Binds t [] { t with bodies } :=
  ⟨.nil _, hc d t.bodies bodies h⟩

/-- Where following references from a type ends, the variables of a match are at the same places as
behind the references. -/
theorem Follows.binds (hc : c.DerivesScoped) {ty ty' : Ty} {ps : List Predicate}
    (h : c.Follows ty t ps ty' t') : c.Binds t [] t' ∧
      ∀ m, (through ps m).occurrences c.schema (some ty) = m.occurrences c.schema (some ty') := by
  induction h with
  | here => exact ⟨.refl c _, fun _ => rfl⟩
  | @step p d _ _ _ ps _ hd henter _ ih =>
      obtain ⟨hbinds, hsame⟩ := ih
      refine ⟨(enter_binds hc henter).append hbinds, fun m => ?_⟩
      show (Match.deref p (through ps m)).occurrences c.schema _ = _
      rw [occurrences, hd]
      exact hsame m

mutual
/-- Typing a pattern binds what occurs in its match. -/
theorem Fits.binds (hc : c.DerivesScoped) {path : List String} {ty : Ty} {p : Pattern}
    {t t' : Typing} {m : Match} : c.Fits path ty p t m t' →
      c.Binds t (m.occurrences c.schema (some ty)) t'
  | .wild => .refl c t
  | .noExpand h => ⟨(h.binds hc).vars, (h.binds hc).bodies⟩
  | .same hlocate hcompatible => by
      obtain ⟨x, hx, rfl⟩ := locate?_some hlocate
      exact ⟨.use hx hcompatible (.nil _), id⟩
  | .bind _ => ⟨.bind ⟨_, ty⟩ (.nil _), id⟩
  | .value hfollow h => by
      obtain ⟨hbinds, hsame⟩ := hfollow.binds hc
      rw [hsame]
      exact hbinds.append (h.binds hc)

theorem FitsValue.binds (hc : c.DerivesScoped) {path : List String} {ty : Ty} {p : Pattern}
    {t t' : Typing} {m : Match} : c.FitsValue path ty p t m t' →
      c.Binds t (m.occurrences c.schema (some ty)) t'
  | .lit _ | .stringStart => .refl c t
  | .array h => h.binds hc
  | .record h => h.binds hc
  | .alt halt hindex h => by
      rw [occurrences, Ty.alternativesAt, hindex, Field.locate?_some halt]
      exact h.binds hc
  | .tuple h => h.binds hc

theorem FitsItems.binds (hc : c.DerivesScoped) {path : List String} {elem : Ty} {ps : List Pattern}
    {t t' : Typing} {ms : List Match} : c.FitsItems path elem ps t ms t' →
      c.Binds t (Match.occurrencesAll c.schema ms (some elem)) t'
  | .nil => .refl c t
  | .cons h hs => (h.binds hc).append (hs.binds hc)

theorem FitsFields.binds (hc : c.DerivesScoped) {path : List String} {fields : List Field}
    {given : List (String × Pattern)} {t t' : Typing} {ms : List (Nat × Match)} :
    c.FitsFields path fields given t ms t' →
      c.Binds t (Match.occurrencesFields c.schema ms fields) t'
  | .nil => .refl c t
  | .cons hf h hs => by
      rw [occurrencesFields, Field.locate?_some hf]
      exact (h.binds hc).append (hs.binds hc)

theorem FitsInOrder.binds (hc : c.DerivesScoped) {path : List String} {fields : List Field} {i : Nat}
    {ps : List Pattern} {t t' : Typing} {ms : List (Nat × Match)} :
    c.FitsInOrder path fields i ps t ms t' →
      c.Binds t (Match.occurrencesFields c.schema ms fields) t'
  | .nil => .refl c t
  | .cons hf h hs => by
      rw [occurrencesFields, hf]
      exact (h.binds hc).append (hs.binds hc)
end

/-! ## Sources and statements -/

/-- Typing a source binds what occurs in the supply. -/
theorem Draws.binds (hc : c.DerivesScoped) {source : Source} {s : Supply} {o : Outcome}
    (h : c.Draws source t s o t') : ∃ os, s.Reads c.schema o os ∧ c.Binds t os t' := by
  cases h with
  | factId id => exact ⟨[], ⟨rfl, rfl⟩, .refl c t⟩
  | expr h => exact ⟨_, ⟨_, rfl, rfl⟩, .of_uses h.uses⟩
  | var _ h => exact ⟨_, ⟨_, rfl, rfl⟩, .of_uses h.uses⟩
  | length _ h => exact ⟨_, ⟨rfl, _, ⟨_, rfl⟩, rfl⟩, .of_uses h.uses⟩
  | @casing _ function _ _ _ _ _ hfunction h =>
      cases function with
      | length => exact absurd rfl hfunction
      | toLower | toUpper => exact ⟨_, ⟨rfl, .string, rfl, rfl⟩, .of_uses h.uses⟩
  | facts hresolve henter hkey hvalue =>
      exact ⟨_, ⟨rfl, _, SortedMap.mem_values_iff.mpr (resolve_mem hresolve), rfl, rfl⟩,
        (enter_binds hc henter).append ((hkey.binds hc).append (hvalue.binds hc))⟩

/-- The match of a statement's pattern binds what occurs in it. -/
theorem Meets.binds (hc : c.DerivesScoped) {p : Pattern} {o : Outcome} {m : Match}
    (h : c.Meets p o t m t') : c.Binds t (m.occurrences c.schema o.place) t' := by
  cases h with
  | anyFact => exact .refl c t
  | fact h => exact h.binds hc
  | value h => exact h.binds hc

/-- Typing statements binds what occurs in their stages, one after another. -/
theorem stages_binds (hc : c.DerivesScoped) {more : Bool} {first o : Outcome} {ss : List Statement}
    {stages : List Stage} (h : c.stages more first ss t = .ok ((stages, o), t')) :
    ∃ os, Stage.ReadAll c.schema first stages o os ∧ c.Binds t os t' := by
  induction ss generalizing first stages t with
  | nil =>
      obtain ⟨hpair, rfl⟩ := Outcome.stateT_pure_ok_iff.mp h
      cases hpair
      exact ⟨[], ⟨rfl, rfl⟩, .refl c t⟩
  | cons s ss ih =>
      obtain ⟨supply, o₁, t₁, bind, t₂, rest, hsupply, hbind, hstages, rfl⟩ := stages_cons h
      obtain ⟨drawn, hdrawn, hbinds⟩ := (supply_draws hsupply).binds hc
      obtain ⟨there, hthere, hafter⟩ := ih hstages
      exact ⟨_, ⟨o₁, _, there, ⟨drawn, hdrawn, rfl⟩, hthere, rfl⟩,
        (hbinds.append ((binding_meets hbind).binds hc)).append hafter⟩

/-- In a body that typing gives, variables are in order, as they are in the bodies that it adds. -/
theorem body_scoped (hc : c.DerivesScoped) {q : Query} {head : Option (Pattern × Ty)}
    {bodies bodies' : Bodies} {b : Body} (h : c.body q head bodies = .ok (b, bodies')) :
    b.Scoped c.schema ∧ (Bodies.Scoped c.schema bodies → Bodies.Scoped c.schema bodies') := by
  obtain ⟨stages, o, t, hstages, rfl, hend⟩ := body_cases h
  obtain ⟨os, hreads, hbinds⟩ := stages_binds hc hstages
  refine ⟨?_, hbinds.bodies⟩
  obtain ⟨-, rfl⟩ | ⟨p, ty, e, found, -, hexpr, rfl⟩ := hend
  · exact ⟨os, hreads, hbinds.vars⟩
  · have hhead : Stage.ReadAll c.schema o [⟨.expr e, .wild⟩] (.ofTy ty) (e.occurrences (some ty)) := by
      refine ⟨.ofTy ty, _, [], ⟨_, ⟨ty, rfl, rfl⟩, rfl⟩, ⟨rfl, rfl⟩, ?_⟩
      rw [occurrences, List.append_nil, List.append_nil]
    exact ⟨_, hreads.append hhead, hbinds.vars.append (.of_used hexpr.uses)⟩

end TypingContext

/-! ## Derived predicates and queries -/

/-- Variables are in order in all bodies of derived predicates. The induction is on how many more
may be entered. -/
theorem deriveWithin_scoped (s : Schema) (names : SortedMap String Predicate) (budget : Nat)
    (entered : List Predicate) :
    (⟨s, names, deriveWithin s budget entered⟩ : TypingContext).DerivesScoped := by
  induction budget generalizing names entered with
  | zero =>
      intro d bodies bodies' h hbodies
      obtain ⟨-, rfl⟩ | ⟨_, _, _, _, -, -, -, hbudget, -⟩ := deriveWithin_cases h
      · exact hbodies
      · cases hbudget
  | succ budget ih =>
      intro d bodies bodies' h hbodies
      obtain ⟨-, rfl⟩ | ⟨n, derivation, b, bodies₁, -, -, -, hbudget, hbody, rfl⟩ :=
        deriveWithin_cases h
      · exact hbodies
      · cases hbudget
        obtain ⟨hb, hadded⟩ := TypingContext.body_scoped (ih derivation.scope _) hbody
        exact (hadded hbodies).insert hb

/-- In every body of a plan that typing gives, variables are in order. -/
theorem Query.typed_scoped {s : Schema} {q : Query} {plan : Plan} (h : q.typed s = .ok plan)
    {b : Body} (hb : plan.HasBody b) : b.Scoped s := by
  obtain ⟨hmain, hderived⟩ :=
    TypingContext.body_scoped (deriveWithin_scoped s ∅ maxDerivations []) (Query.typed_iff.mp h)
  rcases hb with rfl | ⟨p, hb⟩
  · exact hmain
  · exact hderived (fun _ _ hnone => by cases hnone) p b hb

/-- Every body that typing gives, for a query or for a derived predicate, has its variables in
order. Its occurrences of variables, in the order in which the compiler meets them, bind every
variable once, use only those that have been bound before, and stand at places whose types are
compatible with the types that are recorded. -/
theorem Query.typed_binds_once {s : Schema} {q : Query} {plan : Plan} (h : q.typed s = .ok plan)
    {b : Body} (hb : plan.HasBody b) :
    ∃ os, b.Reads s os ∧
      os.map (·.number) = b.stages.flatMap Stage.mentions ∧
      (os.filter (·.binds)).map (·.number) = b.stages.flatMap Stage.binds ∧
      (∀ v < b.vars.length, os.countP (fun o => o.binds && o.number == v) = 1) ∧
      (∀ before o after, os = before ++ o :: after → o.binds = false →
        ∃ o' ∈ before, o'.binds = true ∧ o'.number = o.number) ∧
      ∀ o ∈ os, ∃ x ty, b.vars[o.number]? = some x ∧ o.place = some ty ∧
        x.ty.compatible ty = true := by
  obtain ⟨os, hreads, hscoped⟩ := q.typed_scoped h hb
  have hfollow := hreads.follow
  refine ⟨os, hreads, hfollow.mentioned, hfollow.bound, fun v hv => ?_,
    fun before o after hos ho => ?_, fun o ho => hscoped.compatible ho⟩
  · exact hscoped.count_eq_one (Nat.zero_le v) hv
  · exact (hscoped.bound_before hos ho).resolve_left (Nat.not_lt_zero _)

/-- The elders `E`, their children `C`, and of these only Ann: `E` is bound at the first occurrence
and compared at the third, `C` bound at the second and looked at in the last stage. -/
theorem Query.typed_binds_once_family :
    familyPlan.main.vars.length = 2 ∧
    ∃ os, familyPlan.main.Reads familySchema os ∧ os.map (·.number) = [0, 1, 0, 1] ∧
      (os.filter (·.binds)).map (·.number) = [0, 1] ∧
      (∀ v < 2, os.countP (fun o => o.binds && o.number == v) = 1) ∧
      (∀ before o after, os = before ++ o :: after → o.binds = false →
        ∃ o' ∈ before, o'.binds = true ∧ o'.number = o.number) ∧
      ∀ o ∈ os, ∃ x ty, familyPlan.main.vars[o.number]? = some x ∧ o.place = some ty ∧
        x.ty.compatible ty = true := by
  have hlength : familyPlan.main.vars.length = 2 := by decide +kernel
  have hmentions : familyPlan.main.stages.flatMap Stage.mentions = [0, 1, 0, 1] := by decide +kernel
  have hbinds : familyPlan.main.stages.flatMap Stage.binds = [0, 1] := by decide +kernel
  obtain ⟨os, hreads, hnumbers, hbound, honce, hbefore, hplaces⟩ :=
    typed_binds_once familyQuery_typed (.inl rfl)
  exact ⟨hlength, os, hreads, hnumbers.trans hmentions, hbound.trans hbinds, hlength ▸ honce, hbefore,
    hplaces⟩

/-! ## Values of compatible types -/

/-- Being compatible is an equivalence of types, and compatible types have the same values. So
wherever a variable of a typed query occurs, the values of its type are those of the place. -/
theorem Ty.compatible_equivalence :
    Equivalence (fun a b : Ty => a.compatible b = true) ∧
    (∀ a b : Ty, a.compatible b = true → ∀ v, a.check v = .ok () ↔ b.check v = .ok ()) ∧
    ∀ (s : Schema) (q : Query) (plan : Plan) (b : Body), q.typed s = .ok plan → plan.HasBody b →
      ∃ os, b.Reads s os ∧ ∀ o ∈ os, ∃ x ty, b.vars[o.number]? = some x ∧ o.place = some ty ∧
        ∀ v, x.ty.check v = .ok () ↔ ty.check v = .ok () := by
  refine ⟨⟨compatible_refl, compatible_symm, compatible_trans⟩, fun a b h => conforms_of_compatible h,
    fun s q plan b h hb => ?_⟩
  obtain ⟨os, hreads, hscoped⟩ := q.typed_scoped h hb
  refine ⟨os, hreads, fun o ho => ?_⟩
  obtain ⟨x, ty, hx, hplace, hcompatible⟩ := hscoped.compatible ho
  exact ⟨x, ty, hx, hplace, conforms_of_compatible hcompatible⟩

/-- The type of notes on facts of a version of a predicate, of some importance. -/
def noteTy (version : UInt32) (importance : Option Value) : Ty :=
  .record [⟨"about", .predicate ⟨"a.P", version⟩, none⟩, ⟨"importance", .nat, importance⟩]

theorem Ty.compatible_equivalence_notes :
    (noteTy 1 none).compatible (noteTy 2 (some (.nat 7))) = true ∧
    (noteTy 2 (some (.nat 7))).compatible (noteTy 1 none) = true ∧
    (∀ v, (noteTy 1 none).check v = .ok () ↔ (noteTy 2 (some (.nat 7))).check v = .ok ()) ∧
    ∃ os, familyPlan.main.Reads familySchema os ∧ ∀ o ∈ os, ∃ x ty,
      familyPlan.main.vars[o.number]? = some x ∧ o.place = some ty ∧
        ∀ v, x.ty.check v = .ok () ↔ ty.check v = .ok () := by
  obtain ⟨hequivalence, hvalues, hplaces⟩ := compatible_equivalence
  have hnotes : (noteTy 1 none).compatible (noteTy 2 (some (.nat 7))) = true := by decide +kernel
  exact ⟨hnotes, hequivalence.symm hnotes, hvalues _ _ hnotes,
    hplaces _ _ _ _ familyQuery_typed (.inl rfl)⟩

end Factbase
