import Factbase.Proofs.Schema.Registered

/-!
# What a registry keeps

A registry starts from the builtin snapshot and is offered declarations,
each of which it takes or refuses. `Schema.Sound` is what holds of its
snapshot at any time: types are closed and well named and their defaults
and zero values are values, and names lead to definitions of theirs.
`Schema.Preserves` is what one more declaration leaves alone.

Both follow from coherence, which registration maintains.
-/

namespace Factbase

namespace Ty

/-- The fields of a record, or the alternatives of a sum. -/
def fields : Ty → List Field
  | .record fields | .sum fields => fields
  | _ => []

/-- What a registry ensures of a type by itself: its fields are told apart by their names, and
whatever stands in for a missing value is a value. -/
structure Sound (ty : Ty) : Prop where
  names : (ty.fields.map (·.name)).Nodup
  declared : ∀ f ∈ ty.fields, ∀ v, f.declared = some v → f.ty.Conforms v
  default : ∀ f ∈ ty.fields, ∀ v, f.default? = some v → f.ty.Conforms v
  zero : ∀ v, ty.zero? = some v → ty.Conforms v

theorem mem_predicatesOf {fields : List Field} {p : Predicate} :
    p ∈ predicatesOf fields ↔ ∃ f ∈ fields, p ∈ f.ty.predicates := by
  induction fields with
  | nil => simp [predicatesOf]
  | cons f fields ih =>
      obtain ⟨name, ty, declared⟩ := f
      simp [predicatesOf, ih]

/-- A type all of whose references are to what is known has only known predicates. -/
theorem known_of_mem_predicates {known : Predicate → Prop} {ty : Ty}
    (hty : ty.Every fun ty => ∀ p, ty = .predicate p → known p) {p : Predicate} (hp : p ∈ ty.predicates) :
    known p := by
  induction ty using inductOn with
  | byte | nat | bool | string => cases hp
  | predicate q =>
      obtain rfl : p = q := by simpa [predicates] using hp
      exact hty p rfl
  | array elem ih => exact ih hty.2 hp
  | record fields ih | sum fields ih =>
      obtain ⟨f, hf, hmem⟩ := mem_predicatesOf.mp hp
      exact ih f hf (everyField_iff.mp hty.2 f hf) hmem

theorem Sane.declared {known : Predicate → Prop} :
    {ty : Ty} → ty.Sane known → ∀ f ∈ ty.fields, ∀ v, f.declared = some v → f.ty.Conforms v
  | .record _, h | .sum _, h => fun f hf v hv => (h.defaults f hf v hv).1
  | .byte, _ | .nat, _ | .bool, _ | .string, _ | .array _, _ | .predicate _, _ => by simp [fields]

theorem Sane.nodup {known : Predicate → Prop} :
    {ty : Ty} → ty.Sane known → (ty.fields.map (·.name)).Nodup
  | .record _, h | .sum _, h => h.names
  | .byte, _ | .nat, _ | .bool, _ | .string, _ | .array _, _ | .predicate _, _ => .nil

/-- The fields of a type have types that occur in it. -/
theorem Every.field {P : Ty → Prop} : {ty : Ty} → ty.Every P → ∀ f ∈ ty.fields, f.ty.Every P
  | .record _, h | .sum _, h => everyField_iff.mp h.2
  | .byte, _ | .nat, _ | .bool, _ | .string, _ | .array _, _ | .predicate _, _ => by simp [fields]

theorem sound_of_sane {known : Predicate → Prop} {ty : Ty} (hty : ty.Every (Sane known)) :
    ty.Sound := by
  have hdefaults {ty : Ty} (h : ty.Every (Sane known)) : ty.Every DefaultsConform :=
    h.mono fun _ h => h.defaults.conform
  refine ⟨hty.self.nodup, hty.self.declared, fun f hf v hv => ?_, fun v hv => ?_⟩
  · exact default?_conforms (hty.self.declared f hf) (hdefaults (hty.field f hf)) hv
  · exact zero?_conforms (hdefaults hty) hv

end Ty

namespace Schema

/-! ## Offering declarations -/

/-- The snapshot once a declaration was offered: one that is refused changes nothing. -/
def attempt (s : Schema) (d : SchemaDecl) : Schema := (s.register d).toOption.getD s

/-- The snapshot once declarations were offered in turn. -/
def attemptAll (s : Schema) (ds : List SchemaDecl) : Schema := ds.foldl attempt s

variable {s : Schema}

theorem attempt_cases (s : Schema) (d : SchemaDecl) :
    s.attempt d = s ∨ s.register d = .ok (s.attempt d) := by
  unfold attempt
  cases s.register d with
  | error e => exact .inl rfl
  | ok s' => exact .inr rfl

theorem Registered.attempt (h : Registered s) (d : SchemaDecl) : Registered (s.attempt d) := by
  rcases attempt_cases s d with hsame | hregister
  · rwa [hsame]
  · exact h.register hregister

theorem Registered.attemptAll (h : Registered s) (ds : List SchemaDecl) :
    Registered (s.attemptAll ds) := by
  induction ds generalizing s with
  | nil => exact h
  | cons d ds ih => exact ih (h.attempt d)

/-! ## What one more declaration leaves alone -/

/-- Definitions that are there stay as they are, and so do schemas with what they export. -/
structure Preserves (s s' : Schema) : Prop where
  definitions : ∀ p d, s.get? p = some d → s'.get? p = some d
  schemas : ∀ id info, s.schemas.get? id = some info → s'.schemas.get? id = some info

/-- Registration adds a schema only where there is none, and it exports what it declares on top of
what it inherits. -/
theorem schemas_of_register {d : SchemaDecl} {s' : Schema} (h : s.register d = .ok s') :
    s' = s ∨ s.schemas.get? d.id = none ∧ ∃ base aliases, s.inherited d.inherits = .ok base ∧
      s'.schemas = s.schemas.insert d.id ⟨d, d.addOwn base.predicates, aliases⟩ := by
  unfold register at h
  split at h
  · split at h
    · cases h
      exact .inl rfl
    · cases h
  · rename_i hfresh
    obtain ⟨base, hbase, h⟩ := Outcome.bind_ok_iff.mp h
    obtain ⟨scope, -, h⟩ := Outcome.bind_ok_iff.mp h
    obtain ⟨own, -, h⟩ := Outcome.bind_ok_iff.mp h
    obtain ⟨⟨scope', aliases⟩, -, h⟩ := Outcome.bind_ok_iff.mp h
    obtain ⟨definitions, -, hout⟩ := Outcome.bind_ok_iff.mp h
    cases hout
    exact .inr ⟨hfresh, base, aliases, hbase, rfl⟩

theorem preserves_register (hs : s.Coherent) {d : SchemaDecl} {s' : Schema}
    (h : s.register d = .ok s') : s.Preserves s' := by
  constructor
  · intro p old hold
    rcases register_cases hs h with rfl | ⟨own, definitions, info, hext⟩
    · exact hold
    · exact hext.get?_of_get? hold
  · intro id info hid
    rcases schemas_of_register h with rfl | ⟨hfresh, base, aliases, -, hnew⟩
    · exact hid
    · have hne : id ≠ d.id := by
        rintro rfl
        cases hfresh.symm.trans hid
      rw [hnew, SortedMap.get?_insert_of_ne hne]
      exact hid

theorem preserves_attempt (hs : s.Coherent) (d : SchemaDecl) : s.Preserves (s.attempt d) := by
  rcases attempt_cases s d with hsame | hregister
  · rw [hsame]
    exact ⟨fun _ _ h => h, fun _ _ h => h⟩
  · exact preserves_register hs hregister

/-! ## The registry -/

/-- A type is one of a definition, or an alias that a schema exports. -/
inductive Holds (s : Schema) : Ty → Prop
  | key {p : Predicate} {d : Definition} : s.get? p = some d → s.Holds d.key
  | value {p : Predicate} {d : Definition} : s.get? p = some d → s.Holds d.value
  | exported {id : SchemaId} {info : SchemaInfo} {name : String} {ty : Ty} :
      s.schemas.get? id = some info → info.aliases.get? name = some ty → s.Holds ty

/-- What holds of the snapshot of a registry. -/
structure Sound (s : Schema) : Prop where
  /-- Types refer to predicates that are defined. -/
  references : ∀ ty, s.Holds ty → ∀ p ∈ ty.predicates, s.Defines p
  exports : ∀ id info, s.schemas.get? id = some info →
    ∀ short p, info.exports.get? short = some p → s.Defines p
  scopes : ∀ p d b, s.get? p = some d → d.derivation = some b →
    ∀ short q, b.scope.get? short = some q → s.Defines q
  /-- Every type that occurs has fields and defaults in order. -/
  types : ∀ ty, s.Holds ty → ty.Every Ty.Sound
  /-- A name with a version resolves to the definition of just that. -/
  version : ∀ name v d, s.resolve name (some v) = .ok d →
    d.predicate = ⟨name, v⟩ ∧ s.get? ⟨name, v⟩ = some d
  /-- A name without one resolves to a definition of that name. -/
  latest : ∀ name d, s.resolve name none = .ok d →
    d.predicate.name = name ∧ s.get? d.predicate = some d
  named : ∀ name p, s.latest? name = some p → p.name = name ∧ s.Defines p

theorem Coherent.holds (hs : s.Coherent) {ty : Ty} (h : s.Holds ty) :
    ty.Every (Ty.Sane s.Defines) := by
  cases h with
  | key hd => exact (hs.types _ _ hd).1
  | value hd => exact (hs.types _ _ hd).2
  | exported hid hget => exact hs.aliases _ _ hid _ _ hget

/-- The latest version of a name has that name. -/
theorem latest?_name {name : String} {p : Predicate} (h : s.latest? name = some p) :
    p.name = name := by
  unfold latest? at h
  rcases Outcome.orElse_some h with hum | hlast
  · obtain ⟨info, -, hfind⟩ := Option.bind_eq_some_iff.mp hum
    simpa using List.find?_some hfind
  · have hmem : p ∈ s.versions name := List.mem_of_getLast? hlast
    simpa using (List.mem_filter.mp hmem).2

theorem Coherent.sound (hs : s.Coherent) : s.Sound where
  references _ hty _ := Ty.known_of_mem_predicates ((hs.holds hty).mono fun _ h => h.known)
  exports := hs.exports
  scopes := hs.scopes
  types _ hty := (hs.holds hty).imp_every fun _ => Ty.sound_of_sane
  version name v d h := by
    cases hget : s.get? ⟨name, v⟩ with
    | none =>
        simp only [resolve, hget] at h
        cases h
    | some d' =>
        simp only [resolve, hget] at h
        cases h
        exact ⟨hs.named _ d hget, rfl⟩
  latest name d h := by
    cases hget : (s.latest? name).bind s.get? with
    | none =>
        simp only [resolve, hget] at h
        cases h
    | some d' =>
        simp only [resolve, hget] at h
        cases h
        obtain ⟨p, hp, hd⟩ := Option.bind_eq_some_iff.mp hget
        obtain rfl : d.predicate = p := hs.named p d hd
        exact ⟨latest?_name hp, hd⟩
  named _ _ h := ⟨latest?_name h, latest?_defined hs h⟩

/-- Whatever declarations a registry was offered, its snapshot is in order, and one more
declaration changes nothing that is there. -/
theorem registry_invariant (ds : List SchemaDecl) :
    (builtin.attemptAll ds).Sound ∧
      ∀ d, (builtin.attemptAll ds).Preserves ((builtin.attemptAll ds).attempt d) :=
  have hs : (builtin.attemptAll ds).Coherent := (Registered.builtin.attemptAll ds).coherent
  ⟨hs.sound, preserves_attempt hs⟩

end Schema

end Factbase
