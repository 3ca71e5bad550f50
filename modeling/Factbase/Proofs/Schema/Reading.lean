import Factbase.Proofs.Outcome
import Factbase.Proofs.Schema.Conformance
import Factbase.Schema.ValueJson

/-!
# Values that are read are of their type

Whatever a document looks like, the value that is read from it at a type
is a value of that type, and each reference in it is one that the reading
of references gave for the predicate expected there.

Rules say which value a document stands for at a type (`Ty.Stands`), apart
from errors and the names on the way; what is read is read by the rules
(`decodeJson_stands`). Reading references may change a state, as staging
does. What the state must keep, and what makes a reference good in it, is a
parameter (`Growth`); a reference that is good stays good as the state
grows.
-/

namespace Factbase

/-- A state that grows, with an invariant, and the good references in it. -/
structure Growth (τ : Type) where
  Inv : τ → Prop
  Le : τ → τ → Prop
  Target : τ → Predicate → FactId → Prop
  refl : ∀ s, Le s s
  trans : ∀ {s t u}, Le s t → Le t u → Le s u
  mono : ∀ {s t p id}, Le s t → Target s p id → Target t p id

namespace Growth

variable {τ : Type} (g : Growth τ)

/-- A reading of references keeps the invariant and gives good references. -/
def Reads (read : ReadReference τ) : Prop :=
  ∀ j p s id s', g.Inv s → read j p s = .ok (id, s') → g.Inv s' ∧ g.Le s s' ∧ g.Target s' p id

/-- All references of a value are good for the predicates that the type has there. -/
def Points (s : τ) (ty : Ty) (v : Value) : Prop := ∀ e ∈ ty.positions v, g.Target s e.1 e.2

variable {g}

theorem Points.mono {s t : τ} {ty : Ty} {v : Value} (hle : g.Le s t) (h : g.Points s ty v) :
    g.Points t ty v :=
  fun e he => g.mono hle (h e he)

theorem points_of_references_nil {s : τ} {ty : Ty} {v : Value} (h : ty.Conforms v)
    (hrefs : v.references = []) : g.Points s ty v := by
  intro e he
  rw [Ty.positions_eq_nil h hrefs] at he
  cases he

/-- Values of fields, each with good references. -/
def PointAll (g : Growth τ) (s : τ) (fields : List Field) (vs : List Value) : Prop :=
  List.Forall₂ (fun (f : Field) v => f.ty.Conforms v ∧ g.Points s f.ty v) fields vs

theorem PointAll.conform {s : τ} {fields : List Field} {vs : List Value}
    (h : g.PointAll s fields vs) : Ty.ConformAll fields vs :=
  h.imp fun _ _ hf => hf.1

theorem PointAll.points {s : τ} {fields : List Field} {vs : List Value}
    (h : g.PointAll s fields vs) : g.Points s (.record fields) (.record vs) := by
  intro e he
  rw [Ty.positions] at he
  induction h with
  | nil => cases he
  | cons hf _ ih =>
      rw [Ty.positionsOfFields, List.mem_append] at he
      exact he.elim (hf.2 e) ih

/-- What a type must have for values to be read soundly: what stands in for a missing field is a
value of the field with good references, and an alternative is known by its index. -/
structure Admits (g : Growth τ) (ty : Ty) : Prop where
  defaults : ∀ fields, ty = .record fields → ∀ f ∈ fields, ∀ v, f.default? = some v →
    f.ty.Conforms v ∧ ∀ s, g.Points s f.ty v
  narrow : ty.Narrow

theorem admits_of_readable {ty : Ty} (hty : ty.Every Ty.Readable) : ty.Every g.Admits := by
  refine hty.imp_every fun ty hty => ⟨?_, hty.self.narrow⟩
  rintro fields rfl f hf v hv
  have hfits : f.ty.Every Ty.DefaultsFit :=
    (Ty.everyField_iff.mp hty.2 f hf).mono fun _ h => h.defaults
  obtain ⟨hfit, hrefs⟩ := Ty.default?_fits (hty.1.defaults f hf) hfits hv
  exact ⟨hfit, fun _ => points_of_references_nil hfit hrefs⟩

end Growth

namespace Ty

variable {τ : Type} {g : Growth τ} {read : ReadReference τ}

/-! ## The rules of reading -/

mutual
/-- A document stands for a value of a type; reading the references in it leads from one state to
another. An alternative without payload may be given by its name alone. -/
inductive Stands (read : ReadReference τ) : Ty → Json → τ → Value → τ → Prop
  | byte {n : UInt64} {s : τ} (h : n.toNat < 256) : Stands read .byte (.nat n) s (.byte n.toUInt8) s
  | nat (n : UInt64) (s : τ) : Stands read .nat (.nat n) s (.nat n) s
  | bool (b : Bool) (s : τ) : Stands read .bool (.bool b) s (.bool b) s
  | string {text : String} {s : τ} (h : text.utf8ByteSize ≤ maxStringBytes) :
      Stands read .string (.string text) s (.string text) s
  | fact {p : Predicate} {j : Json} {id : FactId} {s s' : τ} (h : read j p s = .ok (id, s')) :
      Stands read (.predicate p) j s (.fact id) s'
  | array {elem : Ty} {items : List Json} {vs : List Value} {s s' : τ}
      (h : StandsAll read elem items s vs s') : Stands read (.array elem) (.array items) s (.array vs) s'
  | record {fields : List Field} {members : List (String × Json)} {vs : List Value} {s s' : τ}
      (hknown : ∀ m ∈ members, ∃ f ∈ fields, f.name = m.1)
      (h : StandsFields read members fields s vs s') :
      Stands read (.record fields) (.object members) s (.record vs) s'
  | name {alts : List Field} {name : String} {i : Nat} {alt : Field} {s : τ}
      (halt : Field.locate? name alts = some (i, alt)) (hunit : alt.ty.isUnit = true) :
      Stands read (.sum alts) (.string name) s (.alt (UInt32.ofNat i) .unit) s
  | alt {alts : List Field} {name : String} {payload : Json} {i : Nat} {alt : Field} {v : Value}
      {s s' : τ} (halt : Field.locate? name alts = some (i, alt))
      (h : Stands read alt.ty payload s v s') :
      Stands read (.sum alts) (.object [(name, payload)]) s (.alt (UInt32.ofNat i) v) s'

/-- Documents stand for values of one type. -/
inductive StandsAll (read : ReadReference τ) : Ty → List Json → τ → List Value → τ → Prop
  | nil {elem : Ty} {s : τ} : StandsAll read elem [] s [] s
  | cons {elem : Ty} {j : Json} {js : List Json} {v : Value} {vs : List Value} {s t s' : τ}
      (h : Stands read elem j s v t) (hs : StandsAll read elem js t vs s') :
      StandsAll read elem (j :: js) s (v :: vs) s'

/-- Members stand for the fields of a record; for one that they leave out stands its default. -/
inductive StandsFields (read : ReadReference τ) :
    List (String × Json) → List Field → τ → List Value → τ → Prop
  | nil {members : List (String × Json)} {s : τ} : StandsFields read members [] s [] s
  | given {members : List (String × Json)} {f : Field} {fields : List Field} {j : Json} {v : Value}
      {vs : List Value} {s t s' : τ} (hj : members.lookup f.name = some j)
      (h : Stands read f.ty j s v t) (hs : StandsFields read members fields t vs s') :
      StandsFields read members (f :: fields) s (v :: vs) s'
  | default {members : List (String × Json)} {f : Field} {fields : List Field} {v : Value}
      {vs : List Value} {s s' : τ} (hnone : members.lookup f.name = none)
      (hdefault : f.default? = some v) (hs : StandsFields read members fields s vs s') :
      StandsFields read members (f :: fields) s (v :: vs) s'
end

variable {s s' : τ} {v : Value}

/-- Items that are read one by one. -/
theorem mapM_stands {elem : Ty} {f : Json → StateT τ (Except Rejection) Value}
    (hf : ∀ j s s' v, f j s = .ok (v, s') → Stands read elem j s v s') {items : List Json}
    {vs : List Value} (h : items.mapM f s = .ok (vs, s')) : StandsAll read elem items s vs s' := by
  induction items generalizing s vs with
  | nil =>
      obtain ⟨rfl, rfl⟩ := Outcome.stateT_pure_ok_iff.mp h
      exact .nil
  | cons j items ih =>
      rw [List.mapM_cons] at h
      obtain ⟨v, t, hv, hrest⟩ := Outcome.stateT_bind_ok_iff.mp h
      obtain ⟨ws, u, hws, hout⟩ := Outcome.stateT_bind_ok_iff.mp hrest
      obtain ⟨rfl, rfl⟩ := Outcome.stateT_pure_ok_iff.mp hout
      exact .cons (hf j s t v hv) (ih hws)

mutual
/-- What is read from a document, it stands for by the rules. -/
theorem decodeJson_stands : (ty : Ty) → {path : List String} → {j : Json} → {s s' : τ} →
    {v : Value} → ty.decodeJson read path j s = .ok (v, s') → Stands read ty j s v s'
  | .byte, path, j, s, s', v, h => by
      unfold decodeJson at h
      split at h
      · split at h
        · obtain ⟨rfl, rfl⟩ := Outcome.stateT_pure_ok_iff.mp h
          exact .byte ‹_›
        · exact (Outcome.stateT_throw_ok_iff.mp h).elim
      · exact (Outcome.stateT_throw_ok_iff.mp h).elim
  | .nat, path, j, s, s', v, h => by
      unfold decodeJson at h
      split at h
      · obtain ⟨rfl, rfl⟩ := Outcome.stateT_pure_ok_iff.mp h
        exact .nat ..
      · exact (Outcome.stateT_throw_ok_iff.mp h).elim
  | .bool, path, j, s, s', v, h => by
      unfold decodeJson at h
      split at h
      · obtain ⟨rfl, rfl⟩ := Outcome.stateT_pure_ok_iff.mp h
        exact .bool ..
      · exact (Outcome.stateT_throw_ok_iff.mp h).elim
  | .string, path, j, s, s', v, h => by
      unfold decodeJson at h
      split at h
      · split at h
        · exact (Outcome.stateT_throw_ok_iff.mp h).elim
        · obtain ⟨rfl, rfl⟩ := Outcome.stateT_pure_ok_iff.mp h
          exact .string (Nat.le_of_not_gt ‹_›)
      · exact (Outcome.stateT_throw_ok_iff.mp h).elim
  | .predicate p, path, j, s, s', v, h => by
      unfold decodeJson at h
      split at h
      · cases h
        exact .fact ‹_›
      · cases h
  | .array elem, path, j, s, s', v, h => by
      unfold decodeJson at h
      split at h
      · obtain ⟨vs, t, hvs, hout⟩ := Outcome.stateT_bind_ok_iff.mp h
        obtain ⟨rfl, rfl⟩ := Outcome.stateT_pure_ok_iff.mp hout
        exact .array (mapM_stands (fun j s s' v hj => decodeJson_stands elem hj) hvs)
      · exact (Outcome.stateT_throw_ok_iff.mp h).elim
  | .record fields, path, j, s, s', v, h => by
      unfold decodeJson at h
      split at h
      · rename_i members
        cases hunknown : members.find? fun m => fields.all fun f => f.name ≠ m.1 with
        | some m =>
            simp only [hunknown] at h
            exact (Outcome.stateT_throw_ok_iff.mp h).elim
        | none =>
            simp only [hunknown] at h
            obtain ⟨vs, t, hvs, hout⟩ := Outcome.stateT_bind_ok_iff.mp h
            obtain ⟨rfl, rfl⟩ := Outcome.stateT_pure_ok_iff.mp hout
            have hknown : ∀ m ∈ members, ∃ f ∈ fields, f.name = m.1 := fun m hm => by
              simpa using List.find?_eq_none.mp hunknown m hm
            exact .record hknown (decodeFields_stands fields hvs)
      · exact (Outcome.stateT_throw_ok_iff.mp h).elim
  | .sum alts, path, j, s, s', v, h => by
      unfold decodeJson at h
      split at h
      · rename_i name
        cases hloc : Field.locate? name alts with
        | none =>
            simp only [hloc] at h
            exact (Outcome.stateT_throw_ok_iff.mp h).elim
        | some found =>
            simp only [hloc] at h
            split at h
            · obtain ⟨rfl, rfl⟩ := Outcome.stateT_pure_ok_iff.mp h
              exact .name hloc ‹_›
            · exact (Outcome.stateT_throw_ok_iff.mp h).elim
      · obtain ⟨i, alt, w, rfl, hloc, hw⟩ := decodeAlternative_stands alts h
        rw [Nat.zero_add]
        exact .alt hloc hw
      · exact (Outcome.stateT_throw_ok_iff.mp h).elim
      · exact (Outcome.stateT_throw_ok_iff.mp h).elim

theorem decodeFields_stands : (fields : List Field) → {path : List String} →
    {members : List (String × Json)} → {s s' : τ} → {vs : List Value} →
    decodeFields read path fields members s = .ok (vs, s') → StandsFields read members fields s vs s'
  | [], path, members, s, s', vs, h => by
      unfold decodeFields at h
      obtain ⟨rfl, rfl⟩ := Outcome.stateT_pure_ok_iff.mp h
      exact .nil
  | ⟨name, ty, declared⟩ :: fields, path, members, s, s', vs, h => by
      unfold decodeFields at h
      -- the rest is read alike, wherever the value of the field comes from
      have hrest {v : Value} {t : τ}
          (h : (do return v :: (← decodeFields read path fields members) : StateT τ _ _) t =
            .ok (vs, s')) : ∃ ws, vs = v :: ws ∧ StandsFields read members fields t ws s' := by
        obtain ⟨ws, u, hws, hout⟩ := Outcome.stateT_bind_ok_iff.mp h
        obtain ⟨rfl, rfl⟩ := Outcome.stateT_pure_ok_iff.mp hout
        exact ⟨ws, rfl, decodeFields_stands fields hws⟩
      cases hlookup : members.lookup name with
      | some j =>
          simp only [hlookup] at h
          obtain ⟨v, t, hv, h⟩ := Outcome.stateT_bind_ok_iff.mp h
          obtain ⟨ws, rfl, hws⟩ := hrest h
          exact .given hlookup (decodeJson_stands ty hv) hws
      | none =>
          cases hdefault : (⟨name, ty, declared⟩ : Field).default? with
          | some w =>
              simp only [hlookup, hdefault] at h
              obtain ⟨v, t, hv, h⟩ := Outcome.stateT_bind_ok_iff.mp h
              obtain ⟨rfl, rfl⟩ := Outcome.stateT_pure_ok_iff.mp hv
              obtain ⟨ws, rfl, hws⟩ := hrest h
              exact .default hlookup hdefault hws
          | none =>
              simp only [hlookup, hdefault] at h
              obtain ⟨v, t, hv, -⟩ := Outcome.stateT_bind_ok_iff.mp h
              exact (Outcome.stateT_throw_ok_iff.mp hv).elim

/-- The first of `alts` has the given index. -/
theorem decodeAlternative_stands : (alts : List Field) → {path : List String} → {name : String} →
    {payload : Json} → {index : Nat} → {s s' : τ} → {v : Value} →
    decodeAlternative read path name payload index alts s = .ok (v, s') →
    ∃ i alt w, v = .alt (UInt32.ofNat (index + i)) w ∧ Field.locate? name alts = some (i, alt) ∧
      Stands read alt.ty payload s w s'
  | [], path, name, payload, index, s, s', v, h => by
      unfold decodeAlternative at h
      exact (Outcome.stateT_throw_ok_iff.mp h).elim
  | ⟨alt, ty, declared⟩ :: alts, path, name, payload, index, s, s', v, h => by
      unfold decodeAlternative at h
      rw [Field.locate?]
      split at h
      · rename_i hname
        obtain ⟨w, hw, rfl⟩ := Outcome.stateT_map_ok_iff.mp h
        exact ⟨0, ⟨alt, ty, declared⟩, w, rfl, if_pos hname, decodeJson_stands ty hw⟩
      · rename_i hname
        obtain ⟨i, f, w, rfl, hloc, hw⟩ := decodeAlternative_stands alts h
        exact ⟨i + 1, f, w, by rw [Nat.add_assoc, Nat.add_comm 1 i],
          (if_neg hname).trans (by rw [hloc]; rfl), hw⟩
end

/-! ## What is read is of its type -/

/-- The outcome of reading a value at a type. -/
abbrev ReadsTo (g : Growth τ) (s s' : τ) (ty : Ty) (v : Value) : Prop :=
  g.Inv s' ∧ g.Le s s' ∧ ty.Conforms v ∧ g.Points s' ty v

/-- A value without references is read without more ado. -/
theorem readsTo_leaf {s : τ} {ty : Ty} {v : Value} (hs : g.Inv s) (h : ty.Conforms v)
    (hrefs : v.references = []) : ReadsTo g s s ty v :=
  ⟨hs, g.refl s, h, Growth.points_of_references_nil h hrefs⟩

/-- An alternative is of its type where its payload is. -/
theorem readsTo_alt {alts : List Field} {i : Nat} {alt : Field} (hnarrow : alts.length ≤ 2 ^ 32)
    (halt : alts[i]? = some alt) (h : ReadsTo g s s' alt.ty v) :
    ReadsTo g s s' (.sum alts) (.alt (UInt32.ofNat i) v) := by
  obtain ⟨hinv, hle, hfit, hpoints⟩ := h
  have hat := alternative_index hnarrow halt
  refine ⟨hinv, hle, conforms_sum_iff.mpr ⟨_, _, rfl, alt, hat, hfit⟩, fun e he => ?_⟩
  rw [positions] at he
  simp only [hat] at he
  exact hpoints e he

mutual
/-- The value that is read at a type is of that type, and its references are good. -/
theorem Stands.admits (hread : g.Reads read) {ty : Ty} {j : Json} {s s' : τ} {v : Value} :
    Stands read ty j s v s' → ty.Every g.Admits → g.Inv s → ReadsTo g s s' ty v
  | .byte _, _, hs | .nat .., _, hs | .bool .., _, hs | .string _, _, hs => readsTo_leaf hs rfl rfl
  | .fact hid, _, hs => by
      obtain ⟨hinv, hle, htarget⟩ := hread _ _ _ _ _ hs hid
      exact ⟨hinv, hle, rfl, List.forall_mem_singleton.mpr htarget⟩
  | .array h, hty, hs => by
      obtain ⟨hinv, hle, hall⟩ := h.admits hread hty.2 hs
      refine ⟨hinv, hle, conforms_array_iff.mpr ⟨_, rfl, fun w hw => (hall w hw).1⟩, fun e he => ?_⟩
      obtain ⟨w, hw, he⟩ := mem_positionsOfItems.mp he
      exact (hall w hw).2 e he
  | .record _ h, hty, hs => by
      obtain ⟨hinv, hle, hall⟩ := h.admits hread (everyField_iff.mp hty.2) (hty.1.defaults _ rfl) hs
      exact ⟨hinv, hle, conforms_record_iff.mpr ⟨_, rfl, hall.conform⟩, hall.points⟩
  | .name halt hunit, hty, hs => by
      refine readsTo_alt hty.1.narrow (Field.locate?_some halt) (readsTo_leaf hs ?_ rfl)
      rw [isUnit_iff.mp hunit]
      exact conforms_unit
  | .alt halt h, hty, hs => by
      have hat := Field.locate?_some halt
      exact readsTo_alt hty.1.narrow hat
        (h.admits hread (everyField_iff.mp hty.2 _ (List.mem_of_getElem? hat)) hs)

theorem StandsAll.admits (hread : g.Reads read) {elem : Ty} {js : List Json} {s s' : τ}
    {vs : List Value} : StandsAll read elem js s vs s' → elem.Every g.Admits → g.Inv s →
      g.Inv s' ∧ g.Le s s' ∧ ∀ v ∈ vs, elem.Conforms v ∧ g.Points s' elem v
  | .nil, _, hs => ⟨hs, g.refl _, List.forall_mem_nil _⟩
  | .cons h hs, hty, hinv => by
      obtain ⟨ht, hle, hfit, hpoints⟩ := h.admits hread hty hinv
      obtain ⟨hu, hle', hall⟩ := hs.admits hread hty ht
      exact ⟨hu, g.trans hle hle', List.forall_mem_cons.mpr ⟨⟨hfit, hpoints.mono hle'⟩, hall⟩⟩

theorem StandsFields.admits (hread : g.Reads read) {members : List (String × Json)}
    {fields : List Field} {s s' : τ} {vs : List Value} : StandsFields read members fields s vs s' →
      (∀ f ∈ fields, f.ty.Every g.Admits) →
      (∀ f ∈ fields, ∀ v, f.default? = some v → f.ty.Conforms v ∧ ∀ s, g.Points s f.ty v) →
      g.Inv s → g.Inv s' ∧ g.Le s s' ∧ g.PointAll s' fields vs
  | .nil, _, _, hs => ⟨hs, g.refl _, .nil⟩
  | .given _ h hs, hty, hdefaults, hinv => by
      obtain ⟨hhere, hthere⟩ := List.forall_mem_cons.mp hty
      obtain ⟨ht, hle, hfit, hpoints⟩ := h.admits hread hhere hinv
      obtain ⟨hu, hle', hall⟩ := hs.admits hread hthere (List.forall_mem_cons.mp hdefaults).2 ht
      exact ⟨hu, g.trans hle hle', .cons ⟨hfit, hpoints.mono hle'⟩ hall⟩
  | .default _ hdefault hs, hty, hdefaults, hinv => by
      obtain ⟨hhere, hthere⟩ := List.forall_mem_cons.mp hdefaults
      obtain ⟨hfit, hpoints⟩ := hhere _ hdefault
      obtain ⟨hu, hle, hall⟩ := hs.admits hread (List.forall_mem_cons.mp hty).2 hthere hinv
      exact ⟨hu, hle, .cons ⟨hfit, hpoints _⟩ hall⟩
end

theorem decodeJson_admits (hread : g.Reads read) (ty : Ty) (hty : ty.Every g.Admits)
    {path : List String} {j : Json} {s s' : τ} {v : Value} (hs : g.Inv s)
    (h : ty.decodeJson read path j s = .ok (v, s')) : ReadsTo g s s' ty v :=
  (decodeJson_stands ty h).admits hread hty hs

theorem decodeJson_sound (hread : g.Reads read) (ty : Ty) (hty : ty.Every Readable)
    {path : List String} {j : Json} {s s' : τ} {v : Value} (hs : g.Inv s)
    (h : ty.decodeJson read path j s = .ok (v, s')) : ReadsTo g s s' ty v :=
  decodeJson_admits hread ty (Growth.admits_of_readable hty) hs h

/-! ## What is read on the way -/

mutual
/-- The places of a document where a type has a reference, in the order in which they are read, each
with the predicate expected there. -/
def places (ty : Ty) (j : Json) : List (Predicate × Json) :=
  match ty with
  | .predicate p => [(p, j)]
  | .array elem =>
    match j with
    | .array items => items.flatMap (places elem)
    | _ => []
  | .record fields =>
    match j with
    | .object members => placesOfFields fields members
    | _ => []
  | .sum alts =>
    match j with
    | .object [(name, payload)] => placesOfAlternative name payload alts
    | _ => []
  | _ => []

def placesOfFields (fields : List Field) (members : List (String × Json)) :
    List (Predicate × Json) :=
  match fields with
  | [] => []
  | ⟨name, ty, _⟩ :: rest =>
    (match members.lookup name with
      | some j => places ty j
      | none => []) ++ placesOfFields rest members

def placesOfAlternative (name : String) (payload : Json) (alts : List Field) :
    List (Predicate × Json) :=
  match alts with
  | [] => []
  | ⟨alt, ty, _⟩ :: rest =>
    if alt = name then places ty payload else placesOfAlternative name payload rest
end

/-- References are read one after the other, from one state to another. -/
inductive ReadsAll (read : ReadReference τ) : List (Predicate × Json) → τ → τ → Prop
  | nil (s : τ) : ReadsAll read [] s s
  | cons {p : Predicate} {j : Json} {id : FactId} {rest : List (Predicate × Json)} {s t u : τ} :
      read j p s = .ok (id, t) → ReadsAll read rest t u → ReadsAll read ((p, j) :: rest) s u

namespace ReadsAll

variable {l l' : List (Predicate × Json)} {s t u : τ}

theorem append (h : ReadsAll read l s t) (h' : ReadsAll read l' t u) : ReadsAll read (l ++ l') s u := by
  induction h with
  | nil => exact h'
  | cons hread _ ih => exact .cons hread (ih h')

/-- What holds at first and is kept by every reading holds in the end. -/
theorem keeps {I : τ → Prop} (h : ReadsAll read l s t)
    (hread : ∀ e ∈ l, Outcome.Preserves I (read e.2 e.1)) (hs : I s) : I t := by
  induction h with
  | nil => exact hs
  | cons hfirst _ ih =>
      obtain ⟨hhead, htail⟩ := List.forall_mem_cons.mp hread
      exact ih htail (hhead _ _ _ hs hfirst)

end ReadsAll

theorem placesOfAlternative_eq {name : String} {payload : Json} {alts : List Field} {i : Nat}
    {alt : Field} (h : Field.locate? name alts = some (i, alt)) :
    placesOfAlternative name payload alts = alt.ty.places payload := by
  induction alts generalizing i with
  | nil => cases h
  | cons f alts ih =>
      obtain ⟨name', ty, declared⟩ := f
      rw [Field.locate?] at h
      rw [placesOfAlternative]
      split at h
      · rename_i hname
        cases h
        rw [if_pos hname]
      · rename_i hname
        obtain ⟨⟨j, f'⟩, hloc, heq⟩ := Option.map_eq_some_iff.mp h
        cases heq
        rw [if_neg hname, ih hloc]

theorem placesOfFields_cons (f : Field) (fields : List Field) (members : List (String × Json)) :
    placesOfFields (f :: fields) members =
      (match members.lookup f.name with
        | some j => f.ty.places j
        | none => []) ++ placesOfFields fields members := by
  obtain ⟨name, ty, declared⟩ := f
  rw [placesOfFields]

mutual
/-- Reading a value reads the references at its places, and does nothing else to the state. -/
theorem Stands.reads {ty : Ty} {j : Json} {s s' : τ} {v : Value} :
    Stands read ty j s v s' → ReadsAll read (ty.places j) s s'
  | .byte _ | .nat .. | .bool .. | .string _ | .name .. => .nil s
  | .fact hid => .cons hid (.nil s')
  | .array h => h.reads
  | .record _ h => h.reads
  | .alt halt h => by
      rw [places, placesOfAlternative_eq halt]
      exact h.reads

theorem StandsAll.reads {elem : Ty} {js : List Json} {s s' : τ} {vs : List Value} :
    StandsAll read elem js s vs s' → ReadsAll read (js.flatMap elem.places) s s'
  | .nil => .nil s
  | .cons h hs => h.reads.append hs.reads

theorem StandsFields.reads {members : List (String × Json)} {fields : List Field} {s s' : τ}
    {vs : List Value} : StandsFields read members fields s vs s' →
      ReadsAll read (placesOfFields fields members) s s'
  | .nil => .nil s
  | .given hj h hs => by
      rw [placesOfFields_cons, hj]
      exact h.reads.append hs.reads
  | .default hnone _ hs => by
      rw [placesOfFields_cons, hnone]
      exact hs.reads
end

theorem decodeJson_reads (ty : Ty) {path : List String} {j : Json} {s s' : τ} {v : Value}
    (h : ty.decodeJson read path j s = .ok (v, s')) : ReadsAll read (ty.places j) s s' :=
  (decodeJson_stands ty h).reads

end Ty

end Factbase
