import Factbase.Proofs.Query.Rules
import Factbase.Proofs.Query.Typed
import Factbase.Proofs.Schema.Registered

/-!
# Typing gives typed plans

A plan that typing finds for a query is typed (`Query.typed_sound`), and
what it yields is of types that refer only to what the schema defines
(`Query.typed_resolved`). What typing keeps along the way is that the bodies
found so far are built one on another, and whatever property of types holds
throughout the schema and spreads to the types that typing makes up
(`Typing.Good`); and it only ever adds to both (`Typing.Grows`).

A derived predicate that is being typed gets no body meanwhile, so that
its own body, when it is done, is a new one. That is why `Typing.Grows`
speaks of predicates to `avoid`.
-/

namespace Factbase

/-! ## What typing keeps -/

/-- More bodies than before, but none of the predicates to avoid. -/
structure Bodies.Grows (avoid : List Predicate) (bodies bodies' : Bodies) : Prop where
  kept : ∀ p, bodies.contains p = true → bodies'.contains p = true
  avoided : ∀ p ∈ avoid, bodies'.contains p = true → bodies.contains p = true

namespace Bodies.Grows

variable {avoid : List Predicate} {bodies bodies' bodies'' : Bodies}

theorem refl (avoid : List Predicate) (bodies : Bodies) : Bodies.Grows avoid bodies bodies :=
  ⟨fun _ h => h, fun _ _ h => h⟩

theorem trans (h : Bodies.Grows avoid bodies bodies') (h' : Bodies.Grows avoid bodies' bodies'') :
    Bodies.Grows avoid bodies bodies'' :=
  ⟨fun p hp => h'.kept p (h.kept p hp), fun p hp hin => h.avoided p hp (h'.avoided p hp hin)⟩

end Bodies.Grows

namespace Typing

/-- The bodies are built one on another, and `P` holds of the types of variables. -/
structure Good (P : Ty → Prop) (s : Schema) (t : Typing) : Prop where
  built : Bodies.Built s t.bodies
  types : ∀ x ∈ t.vars, x.ty.Every P

/-- What is known in a state of typing. -/
def context (s : Schema) (t : Typing) : PlanContext :=
  ⟨s, fun p => t.bodies.contains p = true, t.vars⟩

/-- Typing adds variables and bodies. -/
structure Grows (avoid : List Predicate) (t t' : Typing) : Prop where
  vars : t.vars <+: t'.vars
  bodies : Bodies.Grows avoid t.bodies t'.bodies

variable {s : Schema} {avoid : List Predicate} {t t' t'' : Typing}

theorem Grows.refl (avoid : List Predicate) (t : Typing) : Grows avoid t t :=
  ⟨List.prefix_rfl, .refl avoid t.bodies⟩

theorem Grows.trans (h : Grows avoid t t') (h' : Grows avoid t' t'') : Grows avoid t t'' :=
  ⟨h.vars.trans h'.vars, h.bodies.trans h'.bodies⟩

theorem Grows.le (h : Grows avoid t t') : (t.context s).Le (t'.context s) :=
  ⟨rfl, h.bodies.kept, h.vars⟩

end Typing

/-- What typing relies on: a schema that it can rely on and throughout which `P` holds of types,
and that a derived predicate has a body once it has been entered. -/
structure TypingContext.Sound (c : TypingContext) (P : Ty → Prop) (avoid : List Predicate) : Prop where
  coherent : c.schema.Coherent
  spreads : Ty.Spreads c.schema.Defines P
  types : ∀ p d, c.schema.get? p = some d → d.key.Every P ∧ d.value.Every P
  derive : ∀ p d bodies bodies', c.schema.get? p = some d → c.derive d bodies = .ok bodies' →
    Bodies.Built c.schema bodies →
    Bodies.Built c.schema bodies' ∧ Bodies.Grows avoid bodies bodies' ∧
      (d.isDerived = true → bodies'.contains d.predicate = true)

namespace TypingContext

open Check

variable {c : TypingContext} {P : Ty → Prop} {avoid : List Predicate} {t t' : Typing}

/-- The outcome of a step of typing. -/
abbrev Leads (c : TypingContext) (P : Ty → Prop) (avoid : List Predicate) (t t' : Typing) : Prop :=
  t'.Good P c.schema ∧ t.Grows avoid t'

theorem Leads.trans {t'' : Typing} (h : c.Leads P avoid t t') (h' : c.Leads P avoid t' t'') :
    c.Leads P avoid t t'' :=
  ⟨h'.1, h.2.trans h'.2⟩

theorem enter_sound (hc : c.Sound P avoid) {p : Predicate} {d : Definition}
    (hd : c.schema.get? p = some d) {bodies : Bodies} (ht : t.Good P c.schema)
    (h : c.derive d t.bodies = .ok bodies) :
    c.Leads P avoid t { t with bodies } ∧
      (Typing.context c.schema { t with bodies }).Usable d := by
  obtain ⟨hbuilt, hgrows, hhas⟩ := hc.derive p d t.bodies bodies hd h ht.built
  exact ⟨⟨⟨hbuilt, ht.types⟩, List.prefix_rfl, hgrows⟩, hhas⟩

/-! ## Patterns -/

theorem locate?_some {name : String} {vars : List Variable} {v : Nat} {ty : Ty}
    (h : locate? name vars = some (v, ty)) : ∃ x, vars[v]? = some x ∧ x.ty = ty := by
  induction vars generalizing v with
  | nil => cases h
  | cons x vars ih =>
      rw [locate?] at h
      split at h
      · cases h
        exact ⟨x, rfl, rfl⟩
      · obtain ⟨⟨w, ty'⟩, hloc, heq⟩ := Option.map_eq_some_iff.mp h
        cases heq
        exact ih hloc

theorem lt_of_getElem? {α : Type} {l : List α} {i : Nat} {a : α} (h : l[i]? = some a) :
    i < l.length :=
  (List.getElem?_eq_some_iff.mp h).1

/-- What following references from a type to another gives: a match at the last type makes
one at the first. -/
def Leadings (pc : PlanContext) (ps : List Predicate) (ty ty' : Ty) : Prop :=
  ∀ pc', pc.Le pc' → ∀ m k k', m.Typed pc' ty' k k' → (through ps m).Typed pc' ty k k'

/-- References are followed to a type at which matches make ones at the type they start
from. -/
theorem Follows.sound (hc : c.Sound P avoid) {ty ty' : Ty} {ps : List Predicate}
    (h : c.Follows ty t ps ty' t') (hty : ty.Every P) (ht : t.Good P c.schema) :
    c.Leads P avoid t t' ∧ t'.vars = t.vars ∧ ty'.Every P ∧
      Leadings (t'.context c.schema) ps ty ty' := by
  induction h with
  | here => exact ⟨⟨ht, .refl avoid _⟩, rfl, hty, fun _ _ _ _ _ hm => hm⟩
  | @step p d _ _ _ ps _ hd henter _ ih =>
      obtain ⟨hleads, husable⟩ := enter_sound hc hd ht henter
      obtain ⟨hleads', hvars, hlast, hthrough⟩ := ih (hc.types p d hd).1 hleads.1
      refine ⟨hleads.trans hleads', hvars, hlast, fun pc hpc m k k' hm => ?_⟩
      have hle := hleads'.2.le.trans hpc
      exact ⟨rfl, d, hle.schema ▸ hd, husable.mono hle, hthrough pc hpc m k k' hm⟩

/-- What typing a part of a pattern leads to. -/
abbrev Matches (c : TypingContext) (P : Ty → Prop) (avoid : List Predicate) (t t' : Typing) (m : Match)
    (ty : Ty) : Prop :=
  c.Leads P avoid t t' ∧ m.Typed (t'.context c.schema) ty t.vars.length t'.vars.length

theorem matches_leaf {m : Match} {ty : Ty} (ht : t.Good P c.schema)
    (hm : ∀ pc k, m.Typed pc ty k k) : c.Matches P avoid t t m ty :=
  ⟨⟨ht, .refl avoid t⟩, hm _ _⟩

theorem literal_conforms {p : Pattern} {ty : Ty} {value : Value} (h : p.Literal ty value) :
    ty.Conforms value ∧ value.references = [] := by
  cases h <;> exact ⟨rfl, rfl⟩

/-- A variable that is new gets the next number. -/
theorem bind_sound {name : String} {ty : Ty} (hty : ty.Every P) (ht : t.Good P c.schema) :
    c.Matches P avoid t { t with vars := t.vars ++ [⟨name, ty⟩] } (.bind t.vars.length) ty := by
  refine ⟨⟨⟨ht.built, fun x hx => ?_⟩, List.prefix_append .., .refl avoid t.bodies⟩, ?_⟩
  · rcases List.mem_append.mp hx with hx | hx
    · exact ht.types x hx
    · obtain rfl := List.mem_singleton.mp hx
      exact hty
  · exact ⟨rfl, by simp, ⟨name, ty⟩, by simp [Typing.context], rfl⟩

mutual
/-- The match of a pattern is typed. -/
theorem Fits.sound (hc : c.Sound P avoid) {path : List String} {ty : Ty} {p : Pattern}
    {t t' : Typing} {m : Match} : c.Fits path ty p t m t' → ty.Every P → t.Good P c.schema →
      c.Matches P avoid t t' m ty
  | .wild, _, ht => matches_leaf ht fun _ _ => rfl
  | .noExpand h, hty, ht => by
      obtain ⟨⟨hgood, hgrows⟩, hm⟩ := h.sound hc hty ⟨ht.built, ht.types⟩
      exact ⟨⟨hgood, hgrows.vars, hgrows.bodies⟩, hm⟩
  | .same hlocate hcompatible, _, ht => by
      obtain ⟨x, hx, rfl⟩ := locate?_some hlocate
      exact ⟨⟨ht, .refl avoid t⟩, rfl, lt_of_getElem? hx, x, hx, hcompatible⟩
  | .bind _, hty, ht => bind_sound hty ht
  | .value hfollow h, hty, ht => by
      obtain ⟨hleads, hvars, hlast, hthrough⟩ := hfollow.sound hc hty ht
      obtain ⟨hleads', hm⟩ := h.sound hc hlast hleads.1
      rw [hvars] at hm
      exact ⟨hleads.trans hleads', hthrough _ hleads'.2.le _ _ _ hm⟩

theorem FitsValue.sound (hc : c.Sound P avoid) {path : List String} {ty : Ty} {p : Pattern}
    {t t' : Typing} {m : Match} : c.FitsValue path ty p t m t' → ty.Every P → t.Good P c.schema →
      c.Matches P avoid t t' m ty
  | .lit h, _, ht => matches_leaf ht fun _ _ => ⟨rfl, literal_conforms h⟩
  | .stringStart, _, ht => matches_leaf ht fun _ _ => ⟨rfl, rfl⟩
  | .array h, hty, ht => (h.sound hc hty.2 ht).imp_right fun hms => ⟨_, rfl, hms⟩
  | .record h, hty, ht =>
      (h.sound hc (Ty.everyField_iff.mp hty.2) ht).imp_right fun hms => ⟨_, rfl, rfl, hms⟩
  | .tuple h, hty, ht =>
      (h.sound hc (Ty.everyField_iff.mp hty.2) ht).imp_right fun hms => ⟨_, rfl, rfl, hms⟩
  | .alt halt hindex h, hty, ht => by
      have hat := Field.locate?_some halt
      obtain ⟨hleads, hm⟩ := h.sound hc (Ty.everyField_iff.mp hty.2 _ (List.mem_of_getElem? hat)) ht
      exact ⟨hleads, _, _, rfl, hindex ▸ hat, hm⟩

theorem FitsItems.sound (hc : c.Sound P avoid) {path : List String} {elem : Ty} {ps : List Pattern}
    {t t' : Typing} {ms : List Match} : c.FitsItems path elem ps t ms t' → elem.Every P →
      t.Good P c.schema → c.Leads P avoid t t' ∧
        Match.TypedAll (t'.context c.schema) ms elem t.vars.length t'.vars.length
  | .nil, _, ht => ⟨⟨ht, .refl avoid t⟩, rfl⟩
  | .cons h hs, hty, ht => by
      obtain ⟨hleads, hm⟩ := h.sound hc hty ht
      obtain ⟨hleads', hms⟩ := hs.sound hc hty hleads.1
      exact ⟨hleads.trans hleads', _, hm.mono hleads'.2.le, hms⟩

theorem FitsFields.sound (hc : c.Sound P avoid) {path : List String} {fields : List Field}
    {given : List (String × Pattern)} {t t' : Typing} {ms : List (Nat × Match)} :
    c.FitsFields path fields given t ms t' → (∀ f ∈ fields, f.ty.Every P) → t.Good P c.schema →
      c.Leads P avoid t t' ∧
        Match.TypedFields (t'.context c.schema) ms fields t.vars.length t'.vars.length
  | .nil, _, ht => ⟨⟨ht, .refl avoid t⟩, rfl⟩
  | .cons hf h hs, hty, ht => by
      have hat := Field.locate?_some hf
      obtain ⟨hleads, hm⟩ := h.sound hc (hty _ (List.mem_of_getElem? hat)) ht
      obtain ⟨hleads', hms⟩ := hs.sound hc hty hleads.1
      exact ⟨hleads.trans hleads', _, _, hat, hm.mono hleads'.2.le, hms⟩

theorem FitsInOrder.sound (hc : c.Sound P avoid) {path : List String} {fields : List Field} {i : Nat}
    {ps : List Pattern} {t t' : Typing} {ms : List (Nat × Match)} :
    c.FitsInOrder path fields i ps t ms t' → (∀ f ∈ fields, f.ty.Every P) → t.Good P c.schema →
      c.Leads P avoid t t' ∧
        Match.TypedFields (t'.context c.schema) ms fields t.vars.length t'.vars.length
  | .nil, _, ht => ⟨⟨ht, .refl avoid t⟩, rfl⟩
  | .cons hat h hs, hty, ht => by
      obtain ⟨hleads, hm⟩ := h.sound hc (hty _ (List.mem_of_getElem? hat)) ht
      obtain ⟨hleads', hms⟩ := hs.sound hc hty hleads.1
      exact ⟨hleads.trans hleads', _, _, hat, hm.mono hleads'.2.le, hms⟩
end

/-! ## Expressions -/

variable {known : Predicate → Prop}

theorem every_leaf (hP : Ty.Spreads known P) {ty : Ty}
    (h : ty = .byte ∨ ty = .nat ∨ ty = .bool ∨ ty = .string) : ty.Every P := by
  obtain ⟨hbyte, hnat, hbool, hstring⟩ := hP.leaf
  rcases h with rfl | rfl | rfl | rfl
  exacts [hbyte, hnat, hbool, hstring]

theorem every_literal (hP : Ty.Spreads known P) {p : Pattern} {ty : Ty} {value : Value}
    (h : p.Literal ty value) : ty.Every P := by
  cases h <;> exact every_leaf hP (by simp)

theorem compatible_getD {ty : Ty} {expected : Option Ty}
    (h : ∀ want ∈ expected, ty.compatible want = true) : ty.compatible (expected.getD ty) = true := by
  cases expected with
  | none => exact Ty.compatible_refl ty
  | some want => exact h want rfl

mutual
/-- An expression is typed at the type that was expected of it or found. -/
theorem Expresses.sound (hP : Ty.Spreads known P) {t : Typing} (ht : ∀ x ∈ t.vars, x.ty.Every P)
    {p : Pattern} {expected : Option Ty} {e : Expr} {ty : Ty} : Expresses t p expected e ty →
      (∀ want ∈ expected, want.Every P) →
      ty.Every P ∧ ∀ s, e.Typed (t.context s) (expected.getD ty) t.vars.length
  | .noExpand h, hwant => h.sound hP ht hwant
  | .var hlocate hcompatible, _ => by
      obtain ⟨x, hx, rfl⟩ := locate?_some hlocate
      exact ⟨ht x (List.mem_of_getElem? hx),
        fun _ => ⟨lt_of_getElem? hx, x, hx, compatible_getD hcompatible⟩⟩
  | .lit h hexpected, _ => by
      refine ⟨every_literal hP h, fun s => ?_⟩
      obtain rfl | ⟨rfl, -⟩ := hexpected
      · exact literal_conforms h
      · exact literal_conforms h
  | .array h, hwant => by
      have hty := hwant _ rfl
      exact ⟨hty, fun s => ⟨_, rfl, h.sound hP ht hty.2 s⟩⟩
  | .items h hs, _ => by
      obtain ⟨helem, he⟩ := h.sound hP ht nofun
      exact ⟨⟨hP.array _, helem⟩, fun s => ⟨_, rfl, he s, hs.sound hP ht helem s⟩⟩
  | .record _ h, hwant => by
      have hty := hwant _ rfl
      have hfields := Ty.everyField_iff.mp hty.2
      exact ⟨hty, fun s => ⟨_, rfl, h.sound hP ht hfields (fun f hf _ hdefault =>
        Ty.default?_fits (hP.defaults _ hty.1 f hf) ((hfields f hf).mono hP.defaults) hdefault) s⟩⟩
  | .fields h, _ => by
      obtain ⟨hplain, hes⟩ := h.sound hP ht
      exact ⟨⟨hP.plain _ fun f hf => (hplain f hf).2,
        Ty.everyField_iff.mpr fun f hf => (hplain f hf).1⟩, fun s => ⟨_, rfl, hes s⟩⟩
  | .alt halt hindex h, hwant => by
      have hty := hwant _ rfl
      have hat := Field.locate?_some halt
      have halt := Ty.everyField_iff.mp hty.2 _ (List.mem_of_getElem? hat)
      obtain ⟨-, he⟩ := h.sound hP ht (by rintro _ ⟨rfl⟩; exact halt)
      exact ⟨hty, fun s => ⟨_, _, rfl, hindex ▸ hat, he s⟩⟩
  | .tuple h, hwant => by
      have hty := hwant _ rfl
      exact ⟨hty, fun s => ⟨_, rfl, h.sound hP ht (Ty.everyField_iff.mp hty.2) s⟩⟩

theorem ExpressesAll.sound (hP : Ty.Spreads known P) {t : Typing} (ht : ∀ x ∈ t.vars, x.ty.Every P)
    {elem : Ty} {ps : List Pattern} {es : List Expr} : ExpressesAll t elem ps es → elem.Every P →
      ∀ s, Expr.TypedAll (t.context s) es elem t.vars.length
  | .nil, _, _ => trivial
  | .cons h hs, hty, s =>
      ⟨(h.sound hP ht (by rintro _ ⟨rfl⟩; exact hty)).2 s, hs.sound hP ht hty s⟩

theorem ExpressesFields.sound (hP : Ty.Spreads known P) {t : Typing}
    (ht : ∀ x ∈ t.vars, x.ty.Every P) {given : List (String × Pattern)} {fields : List Field}
    {es : List Expr} : ExpressesFields t given fields es → (∀ f ∈ fields, f.ty.Every P) →
      (∀ f ∈ fields, ∀ v, f.default? = some v → f.ty.Conforms v ∧ v.references = []) →
      ∀ s, Expr.TypedFields (t.context s) es fields t.vars.length
  | .nil, _, _, _ => trivial
  | .given _ h hs, hty, hdefaults, s => by
      obtain ⟨hhere, hthere⟩ := List.forall_mem_cons.mp hty
      exact ⟨(h.sound hP ht (by rintro _ ⟨rfl⟩; exact hhere)).2 s,
        hs.sound hP ht hthere (List.forall_mem_cons.mp hdefaults).2 s⟩
  | .default _ hdefault hs, hty, hdefaults, s => by
      obtain ⟨-, hthere⟩ := List.forall_mem_cons.mp hty
      obtain ⟨hfits, hrest⟩ := List.forall_mem_cons.mp hdefaults
      exact ⟨hfits _ hdefault, hs.sound hP ht hthere hrest s⟩

theorem ExpressesInOrder.sound (hP : Ty.Spreads known P) {t : Typing}
    (ht : ∀ x ∈ t.vars, x.ty.Every P) {fields : List Field} {ps : List Pattern} {es : List Expr} :
    ExpressesInOrder t fields ps es → (∀ f ∈ fields, f.ty.Every P) →
      ∀ s, Expr.TypedFields (t.context s) es fields t.vars.length
  | .nil, _, _ => trivial
  | .cons h hs, hty, s => by
      obtain ⟨hhere, hthere⟩ := List.forall_mem_cons.mp hty
      exact ⟨(h.sound hP ht (by rintro _ ⟨rfl⟩; exact hhere)).2 s, hs.sound hP ht hthere s⟩

theorem ExpressesGiven.sound (hP : Ty.Spreads known P) {t : Typing}
    (ht : ∀ x ∈ t.vars, x.ty.Every P) {seen : List String} {given : List (String × Pattern)}
    {found : List (Field × Expr)} : ExpressesGiven t seen given found →
      (∀ f ∈ found.map (·.1), f.ty.Every P ∧ f.declared = none) ∧
      ∀ s, Expr.TypedFields (t.context s) (found.map (·.2)) (found.map (·.1)) t.vars.length
  | .nil => ⟨List.forall_mem_nil _, fun _ => trivial⟩
  | .cons _ h hs => by
      obtain ⟨hty, he⟩ := h.sound hP ht nofun
      obtain ⟨hplain, hes⟩ := hs.sound hP ht
      exact ⟨List.forall_mem_cons.mpr ⟨⟨hty, rfl⟩, hplain⟩, fun s => ⟨he s, hes s⟩⟩
end

/-! ## Sources and statements -/

/-- A name stands for a definition that the schema has. -/
theorem resolve_mem {name : String} {version : Option UInt32} {d : Definition}
    (h : c.resolve name version = .ok d) : ∃ p, c.schema.get? p = some d := by
  unfold resolve at h
  dsimp only at h
  split at h
  · split at h
    · cases h
      exact ⟨_, ‹_›⟩
    · cases h
  · split at h
    · exact Schema.resolve_defines h
    · obtain ⟨d', hd', h⟩ := Outcome.bind_ok_iff.mp h
      split at h
      · exact Schema.resolve_defines h
      · cases h
        exact Schema.resolveShort_defines hd'

theorem resolve_defines (hs : c.schema.Coherent) {name : String} {version : Option UInt32}
    {d : Definition} (h : c.resolve name version = .ok d) :
    c.schema.get? d.predicate = some d := by
  obtain ⟨p, hp⟩ := resolve_mem h
  rwa [hs.named p d hp]

/-- What typing a source leads to. -/
abbrev Supplies (c : TypingContext) (P : Ty → Prop) (avoid : List Predicate) (t t' : Typing)
    (s : Supply) (o : Outcome) : Prop :=
  c.Leads P avoid t t' ∧ o.Every P ∧
    s.Typed (t'.context c.schema) o t.vars.length t'.vars.length

theorem every_ofTy {ty : Ty} (h : ty.Every P) : (Outcome.ofTy ty).Every P := by
  cases ty <;> exact h

/-- An expression as a source. -/
theorem exprSupply_sound (hc : c.Sound P avoid) {p : Pattern} {e : Expr} {ty : Ty}
    (ht : t.Good P c.schema) (h : Expresses t p none e ty) : c.Supplies P avoid t t (.expr e) (.ofTy ty) := by
  obtain ⟨hty, htyped⟩ := h.sound hc.spreads ht.types nofun
  exact ⟨⟨ht, .refl avoid t⟩, every_ofTy hty, rfl, ty, rfl, htyped _⟩

theorem Draws.sound (hc : c.Sound P avoid) {source : Source} {s : Supply} {o : Outcome}
    (h : c.Draws source t s o t') (ht : t.Good P c.schema) : c.Supplies P avoid t t' s o := by
  cases h with
  | factId id => exact ⟨⟨ht, .refl avoid t⟩, trivial, rfl, rfl⟩
  | expr h => exact exprSupply_sound hc ht h
  | var _ h => exact exprSupply_sound hc ht h
  | length _ h =>
      obtain ⟨-, htyped⟩ := h.sound hc.spreads ht.types nofun
      exact ⟨⟨ht, .refl avoid t⟩, every_leaf hc.spreads (by simp), rfl, rfl, _, ⟨_, rfl⟩, htyped _⟩
  | @casing _ function _ _ _ _ _ hfunction h =>
      have hstring : (Ty.string).Every P := every_leaf hc.spreads (by simp)
      obtain ⟨-, htyped⟩ := h.sound hc.spreads ht.types (by rintro _ ⟨rfl⟩; exact hstring)
      cases function with
      | length => exact absurd rfl hfunction
      | toLower | toUpper =>
          exact ⟨⟨ht, .refl avoid t⟩, hstring, rfl, rfl, .string, rfl, htyped _⟩
  | facts hresolve henter hkey hvalue =>
      have hd := resolve_defines hc.coherent hresolve
      obtain ⟨hkeyTy, hvalueTy⟩ := hc.types _ _ hd
      obtain ⟨hleads, husable⟩ := enter_sound hc hd ht henter
      obtain ⟨hleads₂, hk⟩ := hkey.sound hc hkeyTy hleads.1
      obtain ⟨hleads₃, hv⟩ := hvalue.sound hc hvalueTy hleads₂.1
      refine ⟨(hleads.trans hleads₂).trans hleads₃, hc.spreads.reference _ ⟨_, hd⟩, rfl, _, _, hd, ?_,
        rfl, hk.mono hleads₃.2.le, hv⟩
      exact (husable.mono hleads₂.2.le).mono hleads₃.2.le

/-- The match of a statement's pattern against what its source yields. -/
theorem Meets.sound (hc : c.Sound P avoid) {p : Pattern} {o : Outcome} {m : Match}
    (h : c.Meets p o t m t') (ho : o.Every P) (ht : t.Good P c.schema) :
    c.Leads P avoid t t' ∧ o.Matched (t'.context c.schema) m t.vars.length t'.vars.length := by
  cases h with
  | anyFact => exact ⟨⟨ht, .refl avoid t⟩, rfl, rfl⟩
  | fact h => exact h.sound hc ho ht
  | value h => exact h.sound hc ho ht

/-- The stages of statements. -/
theorem stages_sound (hc : c.Sound P avoid) {more : Bool} {first o : Outcome} {ss : List Statement}
    {stages : List Stage} (hfirst : first.Every P) (ht : t.Good P c.schema)
    (h : c.stages more first ss t = .ok ((stages, o), t')) :
    c.Leads P avoid t t' ∧ o.Every P ∧
      Stage.TypedAll (t'.context c.schema) first stages o t.vars.length t'.vars.length := by
  induction ss generalizing first stages t with
  | nil =>
      obtain ⟨hout, rfl⟩ := Outcome.stateT_pure_ok_iff.mp h
      cases hout
      exact ⟨⟨ht, .refl avoid t⟩, hfirst, rfl, rfl⟩
  | cons s ss ih =>
      obtain ⟨supply, o₁, t₁, bind, t₂, rest, hsupply, hbind, hstages, rfl⟩ := stages_cons h
      obtain ⟨hleads, ho, hsupplied⟩ := (supply_draws hsupply).sound hc ht
      obtain ⟨hleads₂, hmatched⟩ := (binding_meets hbind).sound hc ho hleads.1
      obtain ⟨hleads₃, hlast, hall⟩ := ih ho hleads₂.1 hstages
      refine ⟨(hleads.trans hleads₂).trans hleads₃, hlast, o₁, t₂.vars.length, ⟨t₁.vars.length, ?_, ?_⟩, hall⟩
      · exact (hsupplied.mono hleads₂.2.le).mono hleads₃.2.le
      · exact hmatched.mono hleads₃.2.le

/-- The body that a query is, and the kind of what it yields where there is a head. -/
theorem body_sound (hc : c.Sound P avoid) {q : Query} {head : Option (Pattern × Ty)}
    {bodies bodies' : Bodies} {b : Body} (hbuilt : Bodies.Built c.schema bodies)
    (hhead : ∀ p ty, head = some (p, ty) → ty.Every P)
    (h : c.body q head bodies = .ok (b, bodies')) :
    Bodies.Built c.schema bodies' ∧ Bodies.Grows avoid bodies bodies' ∧
      b.Typed c.schema (fun p => bodies'.contains p = true) ∧ b.outcome.Every P ∧
      ∀ p ty, head = some (p, ty) → b.outcome = .ofTy ty ∧ b.stages ≠ [] := by
  obtain ⟨stages, o, t, hstages, rfl, hend⟩ := body_cases h
  have hstart : (⟨[], ∅, bodies⟩ : Typing).Good P c.schema := ⟨hbuilt, by simp⟩
  have hunit : (Outcome.value .unit).Every P := ⟨hc.spreads.plain [] (by simp), trivial⟩
  obtain ⟨hleads, houtcome, hall⟩ := stages_sound hc hunit hstart hstages
  refine ⟨hleads.1.built, hleads.2.bodies, ?_⟩
  obtain ⟨rfl, rfl⟩ | ⟨p, ty, e, found, rfl, hexpr, rfl⟩ := hend
  · exact ⟨hall, houtcome, nofun⟩
  · have hty := hhead p ty rfl
    obtain ⟨-, htyped⟩ := hexpr.sound hc.spreads hleads.1.types (by rintro _ ⟨rfl⟩; exact hty)
    refine ⟨hall.append ⟨.ofTy ty, _, ⟨_, ⟨rfl, ty, rfl, htyped _⟩, ?_⟩, rfl, rfl⟩, every_ofTy hty, ?_⟩
    · cases ty <;> rfl
    · rintro _ _ ⟨rfl, rfl⟩
      exact ⟨rfl, by simp⟩

end TypingContext

/-! ## Derived predicates and queries -/

theorem Bodies.Grows.insert {avoid : List Predicate} {bodies bodies' : Bodies} {p : Predicate} {b : Body}
    (h : Bodies.Grows (p :: avoid) bodies bodies') (hp : p ∉ avoid) :
    Bodies.Grows avoid bodies (SortedMap.insert bodies' p b) := by
  constructor
  · intro q hq
    obtain ⟨b', hb'⟩ := SortedMap.contains_iff.mp (h.kept q hq)
    rw [SortedMap.contains_iff, SortedMap.get?_insert]
    by_cases hqp : q = p
    · exact ⟨b, if_pos hqp⟩
    · exact ⟨b', by rw [if_neg hqp, hb']⟩
  · intro q hq hin
    have hqp : q ≠ p := fun heq => hp (heq ▸ hq)
    refine h.avoided q (List.mem_cons_of_mem _ hq) ?_
    rwa [SortedMap.contains, SortedMap.get?_insert_of_ne hqp] at hin

/-- Entering derived predicates builds bodies one on another. The induction is on how many
more may be entered. -/
theorem deriveWithin_sound {s : Schema} {P : Ty → Prop} (hs : s.Coherent)
    (hP : Ty.Spreads s.Defines P) (htypes : ∀ p d, s.get? p = some d → d.key.Every P ∧ d.value.Every P)
    (budget : Nat) (entered : List Predicate) (names : SortedMap String Predicate) :
    (⟨s, names, deriveWithin s budget entered⟩ : TypingContext).Sound P entered := by
  induction budget generalizing entered names with
  | zero =>
      refine ⟨hs, hP, htypes, fun p d bodies bodies' hd h hbuilt => ?_⟩
      unfold deriveWithin at h
      split at h
      · rename_i hderivation
        cases h
        exact ⟨hbuilt, .refl entered bodies, by simp [Definition.isDerived, hderivation]⟩
      · split at h
        · rename_i hin
          cases h
          exact ⟨hbuilt, .refl entered bodies, fun _ => hin⟩
        · split at h <;> cases h
  | succ budget ih =>
      refine ⟨hs, hP, htypes, fun p d bodies bodies' hd h hbuilt => ?_⟩
      unfold deriveWithin at h
      split at h
      · rename_i hderivation
        cases h
        exact ⟨hbuilt, .refl entered bodies, by simp [Definition.isDerived, hderivation]⟩
      · rename_i derivation hderivation
        split at h
        · rename_i hin
          cases h
          exact ⟨hbuilt, .refl entered bodies, fun _ => hin⟩
        · rename_i hnew
          split at h
          · cases h
          · rename_i hentered
            obtain ⟨⟨b, bodies₁⟩, hbody, hout⟩ := Outcome.bind_ok_iff.mp h
            cases hout
            have hd' : s.get? d.predicate = some d := by rwa [hs.named p d hd]
            have hderived : d.isDerived = true := by simp [Definition.isDerived, hderivation]
            obtain ⟨hbuilt₁, hgrows, htyped, -, hhead⟩ :=
              TypingContext.body_sound (ih (d.predicate :: entered) derivation.scope) hbuilt
                (by rintro _ _ ⟨rfl, rfl⟩; exact (htypes p d hd).1) hbody
            obtain ⟨houtcome, hstages⟩ := hhead _ _ rfl
            have hnone : bodies₁.get? d.predicate = none := by
              rw [← Option.not_isSome_iff_eq_none]
              exact fun hsome => hnew (hgrows.avoided _ (List.mem_cons_self ..) hsome)
            refine ⟨.insert hbuilt₁ hd' hderived hnone htyped houtcome hstages,
              hgrows.insert (by simpa using hentered), fun _ => ?_⟩
            rw [SortedMap.contains_iff, SortedMap.get?_insert, if_pos rfl]
            exact ⟨b, rfl⟩

/-- The plan of a query is typed, and a property of types that holds throughout the schema and
spreads holds of what the query yields. -/
theorem Query.typed_every {s : Schema} {P : Ty → Prop} (hs : s.Coherent) (hP : Ty.Spreads s.Defines P)
    (htypes : ∀ p d, s.get? p = some d → d.key.Every P ∧ d.value.Every P) {q : Query} {p : Plan}
    (h : q.typed s = .ok p) : p.Typed s ∧ p.main.outcome.Every P := by
  obtain ⟨⟨main, derived⟩, hbody, hout⟩ := Outcome.bind_ok_iff.mp h
  cases hout
  obtain ⟨hbuilt, -, htyped, houtcome, -⟩ :=
    TypingContext.body_sound (deriveWithin_sound hs hP htypes maxDerivations [] ∅) .empty
      (fun _ _ hhead => by cases hhead) hbody
  exact ⟨⟨hbuilt, htyped⟩, houtcome⟩

theorem Ty.spreads_readable {known : Predicate → Prop} : Ty.Spreads known Ty.Readable where
  defaults _ h := h.defaults
  leaf := ⟨⟨trivial, trivial⟩, ⟨trivial, trivial⟩, ⟨trivial, trivial⟩, ⟨trivial, trivial⟩⟩
  reference _ _ := ⟨trivial, trivial⟩
  array _ := ⟨trivial, trivial⟩
  plain _ h := ⟨fun f hf _ hv => (nomatch (h f hf).symm.trans hv), trivial⟩

/-- The plan of a query is typed. -/
theorem Query.typed_sound {s : Schema} (hs : s.Coherent) (hnarrow : s.Narrow) {q : Query}
    {p : Plan} (h : q.typed s = .ok p) : p.Typed s :=
  (q.typed_every hs Ty.spreads_readable (fun _ _ hd => Schema.readable hs hnarrow hd) h).1

/-- A type whose defaults fit and that, where it is a reference, refers to what is `known`. -/
structure Ty.Resolved (known : Predicate → Prop) (ty : Ty) : Prop where
  defaults : ty.DefaultsFit
  known : ∀ p, ty = .predicate p → known p

theorem Ty.spreads_resolved {known : Predicate → Prop} : Ty.Spreads known (Ty.Resolved known) where
  defaults _ h := h.defaults
  leaf := ⟨⟨trivial, nofun⟩, ⟨trivial, nofun⟩, ⟨trivial, nofun⟩, ⟨trivial, nofun⟩⟩
  reference _ h := ⟨trivial, fun _ heq => Ty.predicate.inj heq ▸ h⟩
  array _ := ⟨trivial, nofun⟩
  plain _ h := ⟨fun f hf _ hv => (nomatch (h f hf).symm.trans hv), nofun⟩

/-- The plan of a query is typed, and the types of what it yields refer only to what the schema
defines. -/
theorem Query.typed_resolved {s : Schema} (hs : s.Coherent) {q : Query} {p : Plan}
    (h : q.typed s = .ok p) : p.Typed s ∧ p.main.outcome.Every (Ty.Resolved s.Defines) := by
  have hand {ty : Ty} (hty : ty.Every (Ty.Sane s.Defines)) : ty.Every (Ty.Resolved s.Defines) :=
    hty.mono fun _ h => ⟨h.defaults, h.known⟩
  exact q.typed_every hs Ty.spreads_resolved
    (fun p d hd => ⟨hand (hs.types p d hd).1, hand (hs.types p d hd).2⟩) h

end Factbase
