import Factbase.Schema.Ty
import Mathlib.Data.List.Forall2

/-!
# Values of a type

What it takes to be a value of a type, for each kind of type, and which
references stand where in such a value. Properties of a type are stated
of every type that occurs in it (`Ty.Every`).
-/

namespace Factbase

/-- Of two lists that go together, the second has an item wherever the first has one. -/
theorem forall₂_getElem? {α β : Type} {R : α → β → Prop} {as : List α} {bs : List β}
    (h : List.Forall₂ R as bs) {i : Nat} {a : α} (ha : as[i]? = some a) :
    ∃ b, bs[i]? = some b ∧ R a b := by
  induction h generalizing i with
  | nil => cases ha
  | cons hab _ ih =>
      cases i with
      | zero =>
          obtain rfl := Option.some.inj ha
          exact ⟨_, rfl, hab⟩
      | succ i => exact ih ha

theorem Field.locate?_some {name : String} {fields : List Field} {i : Nat} {f : Field}
    (h : Field.locate? name fields = some (i, f)) : fields[i]? = some f := by
  induction fields generalizing i with
  | nil => cases h
  | cons f' fields ih =>
      rw [Field.locate?] at h
      split at h
      · cases h
        rfl
      · obtain ⟨⟨j, f''⟩, hloc, heq⟩ := Option.map_eq_some_iff.mp h
        cases heq
        exact ih hloc

theorem Value.isUnit_iff {v : Value} : v.isUnit = true ↔ v = .unit := by
  constructor
  · intro h
    unfold isUnit at h
    split at h
    · rfl
    · cases h
  · rintro rfl
    rfl

/-- The unit value is left out of a fact, and nothing else. -/
theorem Fact.value?_getD (f : Fact) : f.value?.getD .unit = f.value := by
  unfold value?
  split
  · exact (Value.isUnit_iff.mp ‹_›).symm
  · rfl

namespace Ty

/-! ## Induction -/

/-- Induction on types, where the types of fields come by membership. -/
@[elab_as_elim]
theorem inductOn {motive : Ty → Prop} (ty : Ty) (byte : motive .byte) (nat : motive .nat)
    (bool : motive .bool) (string : motive .string)
    (array : ∀ elem, motive elem → motive (.array elem))
    (record : ∀ fields, (∀ f ∈ fields, motive f.ty) → motive (.record fields))
    (sum : ∀ alts, (∀ f ∈ alts, motive f.ty) → motive (.sum alts))
    (predicate : ∀ p, motive (.predicate p)) : motive ty :=
  @Ty.rec (fun f => motive f.ty) motive (fun fields => ∀ f ∈ fields, motive f.ty)
    (fun _ _ _ h => h) byte nat bool string array record sum predicate
    (fun _ h => by cases h) (fun _ _ h hs => List.forall_mem_cons.mpr ⟨h, hs⟩) ty

/-! ## Conformance by kinds of types -/

section Kinds

attribute [local simp] Conforms check checkItems checkFields

theorem conforms_byte_iff {v : Value} : byte.Conforms v ↔ ∃ n, v = .byte n := by
  cases v <;> simp

theorem conforms_nat_iff {v : Value} : nat.Conforms v ↔ ∃ n, v = .nat n := by
  cases v <;> simp

theorem conforms_bool_iff {v : Value} : bool.Conforms v ↔ ∃ b, v = .bool b := by
  cases v <;> simp

theorem conforms_string_iff {v : Value} : string.Conforms v ↔ ∃ s, v = .string s := by
  cases v <;> simp

theorem conforms_predicate_iff {p : Predicate} {v : Value} :
    (predicate p).Conforms v ↔ ∃ id, v = .fact id := by
  cases v <;> simp

theorem checkItems_iff {elem : Ty} {vs : List Value} :
    checkItems elem vs = .ok () ↔ ∀ v ∈ vs, elem.Conforms v := by
  induction vs with
  | nil => simp
  | cons v vs ih =>
      rw [checkItems, List.forall_mem_cons, ← ih, Conforms]
      cases elem.check v <;> simp [bind, Except.bind]

theorem conforms_array_iff {elem : Ty} {v : Value} :
    (array elem).Conforms v ↔ ∃ vs, v = .array vs ∧ ∀ w ∈ vs, elem.Conforms w := by
  cases v with
  | array vs => simp [checkItems_iff]
  | _ => simp

/-- Values of fields, each of its own type. -/
abbrev ConformAll (fields : List Field) (vs : List Value) : Prop :=
  List.Forall₂ (fun (f : Field) v => f.ty.Conforms v) fields vs

theorem checkFields_iff {fields : List Field} {vs : List Value} (hlen : fields.length = vs.length) :
    checkFields fields vs = .ok () ↔ ConformAll fields vs := by
  induction fields generalizing vs with
  | nil =>
      obtain rfl := List.length_eq_zero_iff.mp hlen.symm
      simp
  | cons f fields ih =>
      cases vs with
      | nil => cases hlen
      | cons v vs =>
          have hrest : checkFields fields vs = .ok () ↔ ConformAll fields vs :=
            ih (by simpa using hlen)
          rw [checkFields, ConformAll, List.forall₂_cons, ← ConformAll, ← hrest, Conforms]
          cases f.ty.check v <;> simp [bind, Except.bind]

theorem conforms_record_iff {fields : List Field} {v : Value} :
    (record fields).Conforms v ↔ ∃ vs, v = .record vs ∧ ConformAll fields vs := by
  cases v with
  | record vs =>
      rw [Conforms, check]
      split
      · rename_i hlen
        simp [checkFields_iff hlen]
      · rename_i hlen
        simp only [reduceCtorEq, Value.record.injEq, false_iff, not_exists, not_and]
        rintro ws rfl hall
        exact hlen hall.length_eq
  | _ => simp

theorem conforms_sum_iff {alts : List Field} {v : Value} :
    (sum alts).Conforms v ↔
      ∃ i w, v = .alt i w ∧ ∃ alt, alts[i.toNat]? = some alt ∧ alt.ty.Conforms w := by
  cases v with
  | alt i w =>
      rw [Conforms, check]
      cases halt : alts[i.toNat]? with
      | none => simp [halt]
      | some alt => simp [halt]
  | _ => simp

theorem conforms_unit : unit.Conforms .unit := rfl

/-- The only value of the unit type is the unit value. -/
theorem conforms_unit_iff {v : Value} : unit.Conforms v ↔ v = .unit := by
  constructor
  · intro h
    obtain ⟨vs, rfl, hvs⟩ := conforms_record_iff.mp h
    cases hvs
    rfl
  · rintro rfl
    exact conforms_unit

theorem isUnit_iff {ty : Ty} : ty.isUnit = true ↔ ty = .unit := by
  constructor
  · intro h
    unfold isUnit at h
    split at h
    · rfl
    · cases h
  · rintro rfl
    rfl

end Kinds

/-! ## Types in a type -/

mutual
/-- `P` holds of every type that occurs in a type. -/
def Every (P : Ty → Prop) : Ty → Prop
  | .byte => P .byte
  | .nat => P .nat
  | .bool => P .bool
  | .string => P .string
  | .predicate p => P (.predicate p)
  | .array elem => P (.array elem) ∧ elem.Every P
  | .record fields => P (.record fields) ∧ everyField P fields
  | .sum alts => P (.sum alts) ∧ everyField P alts

def everyField (P : Ty → Prop) : List Field → Prop
  | [] => True
  | ⟨_, ty, _⟩ :: fields => ty.Every P ∧ everyField P fields
end

theorem everyField_iff {P : Ty → Prop} {fields : List Field} :
    everyField P fields ↔ ∀ f ∈ fields, f.ty.Every P := by
  induction fields with
  | nil => simp [everyField]
  | cons f fields ih =>
      obtain ⟨name, ty, declared⟩ := f
      rw [everyField, ih, List.forall_mem_cons]

theorem Every.self {P : Ty → Prop} : {ty : Ty} → ty.Every P → P ty
  | .byte, h | .nat, h | .bool, h | .string, h | .predicate _, h => h
  | .array _, h | .record _, h | .sum _, h => h.1

mutual
theorem Every.mono {P Q : Ty → Prop} (h : ∀ ty, P ty → Q ty) : {ty : Ty} → ty.Every P → ty.Every Q
  | .byte, hp | .nat, hp | .bool, hp | .string, hp | .predicate _, hp => h _ hp
  | .array _, hp => ⟨h _ hp.1, hp.2.mono h⟩
  | .record _, hp => ⟨h _ hp.1, everyField_mono h hp.2⟩
  | .sum _, hp => ⟨h _ hp.1, everyField_mono h hp.2⟩

theorem everyField_mono {P Q : Ty → Prop} (h : ∀ ty, P ty → Q ty) :
    {fields : List Field} → everyField P fields → everyField Q fields
  | [], _ => trivial
  | ⟨_, _, _⟩ :: _, hp => ⟨hp.1.mono h, everyField_mono h hp.2⟩
end

theorem Every.and {P Q : Ty → Prop} {ty : Ty} (hp : ty.Every P) (hq : ty.Every Q) :
    ty.Every fun ty => P ty ∧ Q ty := by
  induction ty using inductOn with
  | byte | nat | bool | string | predicate p => exact ⟨hp, hq⟩
  | array elem ih => exact ⟨⟨hp.1, hq.1⟩, ih hp.2 hq.2⟩
  | record fields ih | sum fields ih =>
      have hps := everyField_iff.mp hp.2
      have hqs := everyField_iff.mp hq.2
      exact ⟨⟨hp.1, hq.1⟩, everyField_iff.mpr fun f hf => ih f hf (hps f hf) (hqs f hf)⟩

theorem Every.imp_every {P Q : Ty → Prop} (h : ∀ ty, ty.Every P → Q ty) {ty : Ty}
    (hty : ty.Every P) : ty.Every Q := by
  induction ty using inductOn with
  | byte | nat | bool | string | predicate p => exact h _ hty
  | array elem ih => exact ⟨h _ hty, ih hty.2⟩
  | record fields ih | sum fields ih =>
      exact ⟨h _ hty, everyField_iff.mpr fun f hf => ih f hf (everyField_iff.mp hty.2 f hf)⟩

section Decidable

variable {P : Ty → Prop} [DecidablePred P]

mutual
def decideEvery : (ty : Ty) → Decidable (ty.Every P)
  | .byte => inferInstanceAs (Decidable (P .byte))
  | .nat => inferInstanceAs (Decidable (P .nat))
  | .bool => inferInstanceAs (Decidable (P .bool))
  | .string => inferInstanceAs (Decidable (P .string))
  | .predicate p => inferInstanceAs (Decidable (P (.predicate p)))
  | .array elem => @instDecidableAnd (P (.array elem)) (elem.Every P) _ (decideEvery elem)
  | .record fields => @instDecidableAnd (P (.record fields)) (everyField P fields) _ (decideFields fields)
  | .sum alts => @instDecidableAnd (P (.sum alts)) (everyField P alts) _ (decideFields alts)

def decideFields : (fields : List Field) → Decidable (everyField P fields)
  | [] => .isTrue trivial
  | ⟨_, ty, _⟩ :: fields =>
    @instDecidableAnd (ty.Every P) (everyField P fields) (decideEvery ty) (decideFields fields)
end

instance : DecidablePred (Every P) := decideEvery

end Decidable

/-! ## References in a value -/

mutual
/-- The references of a value, each with the predicate that the type has there. -/
def positions (ty : Ty) (v : Value) : List (Predicate × FactId) :=
  match ty, v with
  | .predicate p, .fact id => [(p, id)]
  | .array elem, .array vs => positionsOfItems elem vs
  | .record fields, .record vs => positionsOfFields fields vs
  | .sum alts, .alt i w =>
    match alts[i.toNat]? with
    | some alt => alt.ty.positions w
    | none => []
  | _, _ => []

def positionsOfItems (elem : Ty) (vs : List Value) : List (Predicate × FactId) :=
  match vs with
  | [] => []
  | v :: vs => elem.positions v ++ positionsOfItems elem vs

def positionsOfFields (fields : List Field) (vs : List Value) : List (Predicate × FactId) :=
  match vs, fields with
  | v :: vs, f :: fields => f.ty.positions v ++ positionsOfFields fields vs
  | _, _ => []
end

theorem mem_positionsOfItems {elem : Ty} {vs : List Value} {e : Predicate × FactId} :
    e ∈ positionsOfItems elem vs ↔ ∃ v ∈ vs, e ∈ elem.positions v := by
  induction vs with
  | nil => simp [positionsOfItems]
  | cons v vs ih => simp [positionsOfItems, ih]

/-- In a value of a type every reference is at the position of some type. -/
theorem references_eq_positions {ty : Ty} {v : Value} (h : ty.Conforms v) :
    v.references = (ty.positions v).map (·.2) := by
  induction ty using inductOn generalizing v with
  | byte =>
      obtain ⟨n, rfl⟩ := conforms_byte_iff.mp h
      rfl
  | nat =>
      obtain ⟨n, rfl⟩ := conforms_nat_iff.mp h
      rfl
  | bool =>
      obtain ⟨b, rfl⟩ := conforms_bool_iff.mp h
      rfl
  | string =>
      obtain ⟨s, rfl⟩ := conforms_string_iff.mp h
      rfl
  | predicate p =>
      obtain ⟨id, rfl⟩ := conforms_predicate_iff.mp h
      rfl
  | array elem ih =>
      obtain ⟨vs, rfl, hvs⟩ := conforms_array_iff.mp h
      rw [Value.references, positions]
      clear h
      induction vs with
      | nil => rfl
      | cons w ws ihs =>
          obtain ⟨hw, hws⟩ := List.forall_mem_cons.mp hvs
          rw [Value.referencesAll, positionsOfItems, List.map_append, ih hw, ihs hws]
  | record fields ih =>
      obtain ⟨vs, rfl, hvs⟩ := conforms_record_iff.mp h
      rw [Value.references, positions]
      clear h
      induction hvs with
      | nil => rfl
      | cons hw _ ihs =>
          obtain ⟨ihf, ihfs⟩ := List.forall_mem_cons.mp ih
          rw [Value.referencesAll, positionsOfFields, List.map_append, ihf hw, ihs ihfs]
  | sum alts ih =>
      obtain ⟨i, w, rfl, alt, halt, hw⟩ := conforms_sum_iff.mp h
      rw [Value.references, positions]
      simp only [halt]
      exact ih alt (List.mem_of_getElem? halt) hw

/-! ## Defaults -/

/-- The defaults that the fields of a type declare are values of the fields, and refer to
no facts. -/
def DefaultsFit : Ty → Prop
  | .record fields | .sum fields =>
    ∀ f ∈ fields, ∀ v, f.declared = some v → f.ty.Conforms v ∧ v.references = []
  | _ => True

/-- The defaults that the fields of a type declare are values of the fields. -/
def DefaultsConform : Ty → Prop
  | .record fields | .sum fields => ∀ f ∈ fields, ∀ v, f.declared = some v → f.ty.Conforms v
  | _ => True

instance : DecidablePred DefaultsConform
  | .record fields | .sum fields =>
    inferInstanceAs (Decidable (∀ f ∈ fields, ∀ v ∈ f.declared, f.ty.Conforms v))
  | .byte | .nat | .bool | .string | .array _ | .predicate _ => .isTrue trivial

theorem DefaultsFit.conform : {ty : Ty} → ty.DefaultsFit → ty.DefaultsConform
  | .record _, h | .sum _, h => fun f hf v hv => (h f hf v hv).1
  | .byte, _ | .nat, _ | .bool, _ | .string, _ | .array _, _ | .predicate _, _ => trivial

theorem defaults?_conform {fields : List Field}
    (hdefault : ∀ f ∈ fields, ∀ v, f.default? = some v → f.ty.Conforms v) {vs : List Value}
    (h : defaults? fields = some vs) : ConformAll fields vs := by
  induction fields generalizing vs with
  | nil =>
      obtain rfl : [] = vs := by simpa [defaults?] using h
      exact .nil
  | cons f fields ih =>
      obtain ⟨name, ty, declared⟩ := f
      obtain ⟨hd, hds⟩ := List.forall_mem_cons.mp hdefault
      simp only [defaults?, Option.bind_eq_bind, Option.bind_eq_some_iff] at h
      obtain ⟨v, hv, vs', hvs', hout⟩ := h
      obtain rfl : v :: vs' = vs := by simpa using hout
      exact .cons (hd v hv) (ih hds hvs')

/-- What stands in for a missing field is declared, or the zero value. -/
theorem default?_cases {f : Field} {v : Value} (h : f.default? = some v) :
    f.declared = some v ∨ f.ty.zero? = some v := by
  unfold Field.default? at h
  cases hd : f.declared with
  | some w =>
      rw [hd] at h
      exact .inl (by simpa using h)
  | none =>
      rw [hd] at h
      exact .inr (by simpa using h)

/-- A zero value is a value of its type. -/
theorem zero?_conforms {ty : Ty} (hty : ty.Every DefaultsConform) {v : Value}
    (h : ty.zero? = some v) : ty.Conforms v := by
  induction ty using inductOn generalizing v with
  | byte | nat | bool | string | array _ _ =>
      obtain rfl := Option.some.inj h
      rfl
  | predicate p => cases h
  | record fields ih =>
      rw [zero?, Option.map_eq_some_iff] at h
      obtain ⟨vs, hvs, rfl⟩ := h
      have hfields := everyField_iff.mp hty.2
      have hall : ConformAll fields vs := defaults?_conform (fun f hf v hv =>
        (default?_cases hv).elim (hty.1 f hf v) (ih f hf (hfields f hf))) hvs
      exact conforms_record_iff.mpr ⟨vs, rfl, hall⟩
  | sum alts ih =>
      cases alts with
      | nil => cases h
      | cons alt alts =>
          obtain ⟨name, ty, declared⟩ := alt
          rw [zero?, Option.map_eq_some_iff] at h
          obtain ⟨w, hw, rfl⟩ := h
          have hfit := ih ⟨name, ty, declared⟩ (List.mem_cons_self ..) hty.2.1 hw
          exact conforms_sum_iff.mpr ⟨0, w, rfl, _, rfl, hfit⟩

/-- What stands in for a missing field is a value of the field. -/
theorem default?_conforms {f : Field} (hdeclared : ∀ v, f.declared = some v → f.ty.Conforms v)
    (hty : f.ty.Every DefaultsConform) {v : Value} (h : f.default? = some v) : f.ty.Conforms v :=
  (default?_cases h).elim (hdeclared v) (zero?_conforms hty)

theorem referencesAll_of_defaults? {fields : List Field}
    (hdefault : ∀ f ∈ fields, ∀ v, f.default? = some v → v.references = []) {vs : List Value}
    (h : defaults? fields = some vs) : Value.referencesAll vs = [] := by
  induction fields generalizing vs with
  | nil =>
      obtain rfl : [] = vs := by simpa [defaults?] using h
      rfl
  | cons f fields ih =>
      obtain ⟨name, ty, declared⟩ := f
      obtain ⟨hd, hds⟩ := List.forall_mem_cons.mp hdefault
      simp only [defaults?, Option.bind_eq_bind, Option.bind_eq_some_iff] at h
      obtain ⟨v, hv, vs', hvs', hout⟩ := h
      obtain rfl : v :: vs' = vs := by simpa using hout
      rw [Value.referencesAll, hd v hv, ih hds hvs']
      rfl

/-- A zero value refers to no facts. -/
theorem references_of_zero? {ty : Ty} (hty : ty.Every DefaultsFit) {v : Value}
    (h : ty.zero? = some v) : v.references = [] := by
  induction ty using inductOn generalizing v with
  | byte | nat | bool | string | array _ _ =>
      obtain rfl := Option.some.inj h
      rfl
  | predicate p => cases h
  | record fields ih =>
      rw [zero?, Option.map_eq_some_iff] at h
      obtain ⟨vs, hvs, rfl⟩ := h
      have hfields := everyField_iff.mp hty.2
      exact referencesAll_of_defaults? (fun f hf v hv => (default?_cases hv).elim
        (fun hd => (hty.1 f hf v hd).2) (ih f hf (hfields f hf))) hvs
  | sum alts ih =>
      cases alts with
      | nil => cases h
      | cons alt alts =>
          obtain ⟨name, ty, declared⟩ := alt
          rw [zero?, Option.map_eq_some_iff] at h
          obtain ⟨w, hw, rfl⟩ := h
          rw [Value.references]
          exact ih ⟨name, ty, declared⟩ (List.mem_cons_self ..) hty.2.1 hw

/-- A zero value is a value of its type, and refers to no facts. -/
theorem zero?_fits {ty : Ty} (hty : ty.Every DefaultsFit) {v : Value} (h : ty.zero? = some v) :
    ty.Conforms v ∧ v.references = [] :=
  ⟨zero?_conforms (hty.mono fun _ => DefaultsFit.conform) h, references_of_zero? hty h⟩

/-- What stands in for a missing field is a value of the field, and refers to no facts. -/
theorem default?_fits {f : Field}
    (hdeclared : ∀ v, f.declared = some v → f.ty.Conforms v ∧ v.references = [])
    (hty : f.ty.Every DefaultsFit) {v : Value} (h : f.default? = some v) :
    f.ty.Conforms v ∧ v.references = [] :=
  (default?_cases h).elim (hdeclared v) (zero?_fits hty)

/-- A value without references has no positions. -/
theorem positions_eq_nil {ty : Ty} {v : Value} (h : ty.Conforms v) (hrefs : v.references = []) :
    ty.positions v = [] := by
  rw [references_eq_positions h] at hrefs
  exact List.map_eq_nil_iff.mp hrefs

/-- No sum has more alternatives than the index in a value can tell apart. -/
def Narrow : Ty → Prop
  | .sum alts => alts.length ≤ 2 ^ 32
  | _ => True

instance : DecidablePred Narrow
  | .sum alts => inferInstanceAs (Decidable (alts.length ≤ 2 ^ 32))
  | .byte | .nat | .bool | .string | .array _ | .record _ | .predicate _ => .isTrue trivial

/-- The fields of a record, and the alternatives of a sum, have names of their own. -/
def DistinctNames : Ty → Prop
  | .record fields | .sum fields => (fields.map (·.name)).Nodup
  | _ => True

instance : DecidablePred DistinctNames
  | .record fields | .sum fields => inferInstanceAs (Decidable (fields.map (·.name)).Nodup)
  | .byte | .nat | .bool | .string | .array _ | .predicate _ => .isTrue trivial

/-- What a type must have for values to be read soundly. -/
structure Readable (ty : Ty) : Prop where
  defaults : ty.DefaultsFit
  narrow : ty.Narrow

/-- What a type must have for values to be converted to it soundly. -/
structure Convertible (ty : Ty) : Prop where
  defaults : ty.DefaultsConform
  narrow : ty.Narrow

theorem Readable.convertible {ty : Ty} (h : ty.Readable) : ty.Convertible :=
  ⟨h.defaults.conform, h.narrow⟩

/-- An alternative that a narrow sum has is found again by its index. -/
theorem alternative_index {alts : List Field} {i : Nat} {f : Field} (hnarrow : alts.length ≤ 2 ^ 32)
    (h : alts[i]? = some f) : alts[(UInt32.ofNat i).toNat]? = some f := by
  have hlt := (List.getElem?_eq_some_iff.mp h).1
  rwa [UInt32.toNat_ofNat', Nat.mod_eq_of_lt (by omega)]

end Ty

end Factbase
