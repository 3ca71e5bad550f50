import Factbase.Proofs.Schema.Compatibility
import Factbase.Proofs.SortedMap
import Factbase.Query.Typing

/-!
# Typed plans

What it means for the parts of a plan to have types, apart from how
typing finds them. Variables are bound in the order of their numbers: a
match is typed between a number of variables that have values before it
and the number of those that have values after it. So a variable is
bound once, and is mentioned only once it has a value.

The bodies of derived predicates come in an order in which each of them
uses only those before it (`Bodies.Built`).
-/

namespace Factbase

/-- What the types in a plan depend on: the schema, the derived predicates that have a
body, and the variables. -/
structure PlanContext where
  schema : Schema
  bodied : Predicate → Prop
  vars : List Variable

namespace PlanContext

/-- A definition that can be drawn from: where it is derived, it has a body. -/
def Usable (c : PlanContext) (d : Definition) : Prop := d.isDerived = true → c.bodied d.predicate

/-- A context with more bodies and more variables. -/
structure Le (c c' : PlanContext) : Prop where
  schema : c'.schema = c.schema
  bodied : ∀ p, c.bodied p → c'.bodied p
  vars : c.vars <+: c'.vars

variable {c c' c'' : PlanContext}

theorem Le.trans (h : c.Le c') (h' : c'.Le c'') : c.Le c'' :=
  ⟨h'.schema.trans h.schema, fun p hp => h'.bodied p (h.bodied p hp), h.vars.trans h'.vars⟩

theorem Le.getElem? (h : c.Le c') {v : Nat} {x : Variable} (hx : c.vars[v]? = some x) :
    c'.vars[v]? = some x := by
  obtain ⟨more, hmore⟩ := h.vars
  rw [← hmore, List.getElem?_append_left (List.getElem?_eq_some_iff.mp hx).1, hx]

theorem Usable.mono (h : c.Le c') {d : Definition} (hd : c.Usable d) : c'.Usable d :=
  fun hderived => h.bodied _ (hd hderived)

end PlanContext

/-! ## Matches -/

namespace Match

mutual
/-- A match against values of a type, where `k` variables have values before it and `k'`
after it. -/
def Typed (c : PlanContext) : Match → Ty → Nat → Nat → Prop
  | .wild, _, k, k' => k' = k
  | .bind v, ty, k, k' => v = k ∧ k' = k + 1 ∧ ∃ x, c.vars[k]? = some x ∧ x.ty = ty
  | .same v, ty, k, k' => k' = k ∧ v < k ∧ ∃ x, c.vars[v]? = some x ∧ x.ty.compatible ty = true
  | .lit value, ty, k, k' => k' = k ∧ ty.Conforms value ∧ value.references = []
  | .stringStart _, ty, k, k' => k' = k ∧ ty = .string
  | .array items, ty, k, k' => ∃ elem, ty = .array elem ∧ TypedAll c items elem k k'
  | .record arity fields, ty, k, k' =>
    ∃ all, ty = .record all ∧ arity = all.length ∧ TypedFields c fields all k k'
  | .alt index payload, ty, k, k' =>
    ∃ alts alt, ty = .sum alts ∧ alts[index.toNat]? = some alt ∧ payload.Typed c alt.ty k k'
  | .deref p key, ty, k, k' =>
    ty = .predicate p ∧ ∃ d, c.schema.get? p = some d ∧ c.Usable d ∧ key.Typed c d.key k k'

/-- Matches against the items of an array. -/
def TypedAll (c : PlanContext) : List Match → Ty → Nat → Nat → Prop
  | [], _, k, k' => k' = k
  | m :: ms, elem, k, k' => ∃ j, m.Typed c elem k j ∧ TypedAll c ms elem j k'

/-- Matches against fields of a record, given by index. -/
def TypedFields (c : PlanContext) : List (Nat × Match) → List Field → Nat → Nat → Prop
  | [], _, k, k' => k' = k
  | (i, m) :: ms, all, k, k' =>
    ∃ f j, all[i]? = some f ∧ m.Typed c f.ty k j ∧ TypedFields c ms all j k'
end

mutual
theorem Typed.mono {c c' : PlanContext} (h : c.Le c') :
    (m : Match) → {ty : Ty} → {k k' : Nat} → m.Typed c ty k k' → m.Typed c' ty k k'
  | .wild, _, _, _, hm => hm
  | .bind _, _, _, _, ⟨hv, hk, x, hx, hty⟩ => ⟨hv, hk, x, h.getElem? hx, hty⟩
  | .same _, _, _, _, ⟨hk, hv, x, hx, hty⟩ => ⟨hk, hv, x, h.getElem? hx, hty⟩
  | .lit _, _, _, _, hm => hm
  | .stringStart _, _, _, _, hm => hm
  | .array items, _, _, _, ⟨elem, hty, hitems⟩ => ⟨elem, hty, TypedAll.mono h items hitems⟩
  | .record _ fields, _, _, _, ⟨all, hty, hlen, hfields⟩ =>
    ⟨all, hty, hlen, TypedFields.mono h fields hfields⟩
  | .alt _ payload, _, _, _, ⟨alts, a, hty, ha, hpayload⟩ =>
    ⟨alts, a, hty, ha, Typed.mono h payload hpayload⟩
  | .deref _ key, _, _, _, ⟨hty, d, hd, husable, hkey⟩ =>
    ⟨hty, d, h.schema ▸ hd, husable.mono h, Typed.mono h key hkey⟩

theorem TypedAll.mono {c c' : PlanContext} (h : c.Le c') :
    (ms : List Match) → {elem : Ty} → {k k' : Nat} → TypedAll c ms elem k k' →
      TypedAll c' ms elem k k'
  | [], _, _, _, hms => hms
  | m :: ms, _, _, _, ⟨j, hm, hms⟩ => ⟨j, Typed.mono h m hm, TypedAll.mono h ms hms⟩

theorem TypedFields.mono {c c' : PlanContext} (h : c.Le c') :
    (ms : List (Nat × Match)) → {all : List Field} → {k k' : Nat} → TypedFields c ms all k k' →
      TypedFields c' ms all k k'
  | [], _, _, _, hms => hms
  | (_, m) :: ms, _, _, _, ⟨f, j, hf, hm, hms⟩ =>
    ⟨f, j, hf, Typed.mono h m hm, TypedFields.mono h ms hms⟩
end

end Match

/-! ## Expressions -/

namespace Expr

mutual
/-- An expression of a type over the first `k` variables. -/
def Typed (c : PlanContext) : Expr → Ty → Nat → Prop
  | .lit value, ty, _ => ty.Conforms value ∧ value.references = []
  | .var v, ty, k => v < k ∧ ∃ x, c.vars[v]? = some x ∧ x.ty.compatible ty = true
  | .array items, ty, k => ∃ elem, ty = .array elem ∧ TypedAll c items elem k
  | .record fields, ty, k => ∃ all, ty = .record all ∧ TypedFields c fields all k
  | .alt index payload, ty, k =>
    ∃ alts alt, ty = .sum alts ∧ alts[index.toNat]? = some alt ∧ payload.Typed c alt.ty k

def TypedAll (c : PlanContext) : List Expr → Ty → Nat → Prop
  | [], _, _ => True
  | e :: es, elem, k => e.Typed c elem k ∧ TypedAll c es elem k

def TypedFields (c : PlanContext) : List Expr → List Field → Nat → Prop
  | [], [], _ => True
  | e :: es, f :: fs, k => e.Typed c f.ty k ∧ TypedFields c es fs k
  | _, _, _ => False
end

mutual
theorem Typed.mono {c c' : PlanContext} (h : c.Le c') {k k' : Nat} (hk : k ≤ k') :
    (e : Expr) → {ty : Ty} → e.Typed c ty k → e.Typed c' ty k'
  | .lit _, _, he => he
  | .var _, _, ⟨hv, x, hx, hty⟩ => ⟨Nat.lt_of_lt_of_le hv hk, x, h.getElem? hx, hty⟩
  | .array items, _, ⟨elem, hty, hitems⟩ => ⟨elem, hty, TypedAll.mono h hk items hitems⟩
  | .record fields, _, ⟨all, hty, hfields⟩ => ⟨all, hty, TypedFields.mono h hk fields hfields⟩
  | .alt _ payload, _, ⟨alts, a, hty, ha, hpayload⟩ =>
    ⟨alts, a, hty, ha, Typed.mono h hk payload hpayload⟩

theorem TypedAll.mono {c c' : PlanContext} (h : c.Le c') {k k' : Nat} (hk : k ≤ k') :
    (es : List Expr) → {elem : Ty} → TypedAll c es elem k → TypedAll c' es elem k'
  | [], _, _ => trivial
  | e :: es, _, ⟨he, hes⟩ => ⟨Typed.mono h hk e he, TypedAll.mono h hk es hes⟩

theorem TypedFields.mono {c c' : PlanContext} (h : c.Le c') {k k' : Nat} (hk : k ≤ k') :
    (es : List Expr) → {fs : List Field} → TypedFields c es fs k → TypedFields c' es fs k'
  | [], [], _ => trivial
  | e :: es, _ :: _, ⟨he, hes⟩ => ⟨Typed.mono h hk e he, TypedFields.mono h hk es hes⟩
end

end Expr

/-! ## Stages -/

/-- The type of what a primitive function is applied to. -/
def Prim.Takes (f : Prim) (ty : Ty) : Prop :=
  match f with
  | .toLower | .toUpper => ty = .string
  | .length => ∃ elem, ty = .array elem

/-- The type of what a primitive function gives. -/
def Prim.gives : Prim → Ty
  | .toLower | .toUpper => .string
  | .length => .nat

/-- A supply of candidates of some kind. -/
def Supply.Typed (c : PlanContext) (s : Supply) (o : Outcome) (k k' : Nat) : Prop :=
  match s with
  | .facts p derived key value =>
    o = .fact p ∧ ∃ d j, c.schema.get? p = some d ∧ c.Usable d ∧ derived = d.isDerived ∧
      key.Typed c d.key k j ∧ value.Typed c d.value j k'
  | .factId _ => o = .anyFact ∧ k' = k
  | .prim f arg => o = .value f.gives ∧ k' = k ∧ ∃ ty, f.Takes ty ∧ arg.Typed c ty k
  | .expr e => k' = k ∧ ∃ ty, o = .ofTy ty ∧ e.Typed c ty k

/-- A match against candidates of some kind. Facts of which the predicate is not known are
not matched. -/
def Outcome.Matched (c : PlanContext) (o : Outcome) (m : Match) (k k' : Nat) : Prop :=
  match o with
  | .fact p => m.Typed c (.predicate p) k k'
  | .anyFact => m = .wild ∧ k' = k
  | .value ty => m.Typed c ty k k'

/-- `P` holds of the types of what a source yields. -/
def Outcome.Every (P : Ty → Prop) : Outcome → Prop
  | .value ty => ty.Every P
  | .fact p => P (.predicate p)
  | .anyFact => True

/-- A property of types that those which typing makes up have: references to what is `known`,
arrays, and records without defaults; and at types that have it defaults fit. -/
structure Ty.Spreads (known : Predicate → Prop) (P : Ty → Prop) : Prop where
  defaults : ∀ ty, P ty → ty.DefaultsFit
  leaf : P .byte ∧ P .nat ∧ P .bool ∧ P .string
  reference : ∀ p, known p → P (.predicate p)
  array : ∀ elem, P (.array elem)
  plain : ∀ fields, (∀ f ∈ fields, f.declared = none) → P (.record fields)

/-- A stage that yields candidates of some kind. -/
def Stage.Typed (c : PlanContext) (s : Stage) (o : Outcome) (k k' : Nat) : Prop :=
  ∃ j, s.supply.Typed c o k j ∧ o.Matched c s.bind j k'

/-- Stages in turn, the last of which yields candidates of some kind; `first` is what they
yield where there are none. -/
def Stage.TypedAll (c : PlanContext) (first : Outcome) : List Stage → Outcome → Nat → Nat → Prop
  | [], o, k, k' => o = first ∧ k' = k
  | s :: rest, o, k, k' => ∃ o' j, s.Typed c o' k j ∧ Stage.TypedAll c o' rest o j k'

section Mono

variable {c c' : PlanContext} (h : c.Le c') {o : Outcome} {k k' : Nat}

include h

theorem Supply.Typed.mono {s : Supply} (hs : s.Typed c o k k') : s.Typed c' o k k' := by
  cases s with
  | facts p derived key value =>
      obtain ⟨ho, d, j, hd, husable, hderived, hkey, hvalue⟩ := hs
      exact ⟨ho, d, j, h.schema ▸ hd, husable.mono h, hderived, hkey.mono h, hvalue.mono h⟩
  | factId id => exact hs
  | prim f arg =>
      obtain ⟨ho, hk, ty, htakes, harg⟩ := hs
      exact ⟨ho, hk, ty, htakes, harg.mono h (Nat.le_refl _)⟩
  | expr e =>
      obtain ⟨hk, ty, ho, he⟩ := hs
      exact ⟨hk, ty, ho, he.mono h (Nat.le_refl _)⟩

theorem Outcome.Matched.mono {m : Match} (hm : o.Matched c m k k') : o.Matched c' m k k' := by
  cases o with
  | fact p => exact Match.Typed.mono h m hm
  | anyFact => exact hm
  | value ty => exact Match.Typed.mono h m hm

theorem Stage.Typed.mono {s : Stage} (hs : s.Typed c o k k') : s.Typed c' o k k' := by
  obtain ⟨j, hsupply, hbind⟩ := hs
  exact ⟨j, hsupply.mono h, hbind.mono h⟩

theorem Stage.TypedAll.mono {first : Outcome} {ss : List Stage}
    (hss : Stage.TypedAll c first ss o k k') : Stage.TypedAll c' first ss o k k' := by
  induction ss generalizing first k with
  | nil => exact hss
  | cons s ss ih =>
      obtain ⟨o', j, hs, hrest⟩ := hss
      exact ⟨o', j, hs.mono h, ih hrest⟩

end Mono

/-- More stages after others. -/
theorem Stage.TypedAll.append {c : PlanContext} {first o o' : Outcome} {ss ss' : List Stage}
    {k j k' : Nat} (hss : Stage.TypedAll c first ss o k j) (hss' : Stage.TypedAll c o ss' o' j k') :
    Stage.TypedAll c first (ss ++ ss') o' k k' := by
  induction ss generalizing first k with
  | nil =>
      obtain ⟨rfl, rfl⟩ := hss
      exact hss'
  | cons s ss ih =>
      obtain ⟨o₁, i, hs, hrest⟩ := hss
      exact ⟨o₁, i, hs, ih hrest⟩

/-! ## Bodies -/

/-- A body whose stages bind all its variables. -/
def Body.Typed (s : Schema) (bodied : Predicate → Prop) (b : Body) : Prop :=
  Stage.TypedAll ⟨s, bodied, b.vars⟩ (.value .unit) b.stages b.outcome 0 b.vars.length

/-- Bodies of derived predicates, each of which uses only those that were there before it. -/
inductive Bodies.Built (s : Schema) : Bodies → Prop
  | empty : Built s ∅
  | insert {bodies : Bodies} {p : Predicate} {d : Definition} {b : Body} : Built s bodies →
    s.get? p = some d → d.isDerived = true → bodies.get? p = none →
    b.Typed s (fun q => bodies.contains q = true) → b.outcome = .ofTy d.key → b.stages ≠ [] →
    Built s (SortedMap.insert bodies p b)

/-- A plan all of whose parts have types. -/
structure Plan.Typed (s : Schema) (p : Plan) : Prop where
  derived : Bodies.Built s p.derived
  main : p.main.Typed s fun q => p.derived.contains q = true

end Factbase
