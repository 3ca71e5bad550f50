import Factbase.Proofs.Schema.Reading
import Factbase.Proofs.Schema.Written

/-!
# Checking, writing and reading agree

Three recursions over a type say which values it has: the check, the
writing of values as JSON and the reading. A value can be written exactly
if the check accepts it, it is read back from what is written, and nothing
is read but values that the check accepts.
-/

namespace Factbase

/-- Any state will do, and any reference. -/
def Growth.free (τ : Type) : Growth τ where
  Inv _ := True
  Le _ _ := True
  Target _ _ _ := True
  refl _ := trivial
  trans _ _ := trivial
  mono _ _ := trivial

namespace Ty

variable {τ : Type}

theorem Convertible.admits_free {ty : Ty} (hty : ty.Every Convertible) :
    ty.Every (Growth.free τ).Admits := by
  refine hty.imp_every fun ty hty => ⟨?_, hty.self.narrow⟩
  rintro fields rfl f hf v hv
  have hconform : f.ty.Every DefaultsConform :=
    (everyField_iff.mp hty.2 f hf).mono fun _ h => h.defaults
  exact ⟨default?_conforms (hty.1.defaults f hf) hconform hv, fun _ _ _ => trivial⟩

/-- Whatever is read at a type is a value of the type, however references are read. -/
theorem decodeJson_conforms {ty : Ty} (hty : ty.Every Convertible) {read : ReadReference τ}
    {path : List String} {j : Json} {s s' : τ} {v : Value}
    (h : ty.decodeJson read path j s = .ok (v, s')) : ty.Conforms v :=
  (decodeJson_admits (g := Growth.free τ) (fun _ _ _ _ _ _ _ => ⟨trivial, trivial, trivial⟩) ty
    (Convertible.admits_free hty) trivial h).2.2.1

/-! ## What can be written -/

theorem encodeItems_conform {write : WriteReference τ} {elem : Ty}
    (helem : ∀ {path v s j s'}, encodeJson write path elem v s = .ok (j, s') → elem.Conforms v)
    {path : List String} {vs : List Value} {s s' : τ} {js : List Json}
    (h : encodeItems write path elem vs s = .ok (js, s')) : ∀ v ∈ vs, elem.Conforms v := by
  induction vs generalizing s s' js with
  | nil => simp
  | cons v vs ih =>
      rw [encodeItems] at h
      obtain ⟨j, t, hj, h⟩ := Outcome.stateT_bind_ok_iff.mp h
      obtain ⟨js', u, hjs, -⟩ := Outcome.stateT_bind_ok_iff.mp h
      exact List.forall_mem_cons.mpr ⟨helem hj, ih hjs⟩

theorem encodeFields_conform {write : WriteReference τ} {fields : List Field}
    (hfields : ∀ f ∈ fields, ∀ {path v s j s'},
      encodeJson write path f.ty v s = .ok (j, s') → f.ty.Conforms v)
    {path : List String} {vs : List Value} (hlen : fields.length = vs.length) {s s' : τ}
    {members : List (String × Json)}
    (h : encodeFields write path fields vs s = .ok (members, s')) : ConformAll fields vs := by
  induction fields generalizing vs s s' members with
  | nil =>
      obtain rfl := List.length_eq_zero_iff.mp hlen.symm
      exact .nil
  | cons f fields ih =>
      obtain ⟨hf, hfields⟩ := List.forall_mem_cons.mp hfields
      cases vs with
      | nil => cases hlen
      | cons v vs =>
          rw [encodeFields] at h
          obtain ⟨j, t, hj, h⟩ := Outcome.stateT_bind_ok_iff.mp h
          obtain ⟨members', u, hrest, -⟩ := Outcome.stateT_bind_ok_iff.mp h
          exact .cons (hf hj) (ih hfields (by simpa using hlen) hrest)

/-- Nothing can be written at a type but its values. -/
theorem encodeJson_conforms {write : WriteReference τ} {path : List String} {ty : Ty} {v : Value}
    {s s' : τ} {j : Json} (h : encodeJson write path ty v s = .ok (j, s')) : ty.Conforms v := by
  induction ty using inductOn generalizing path v s j s' with
  | byte | nat | bool | string | predicate p =>
      cases v with
      | byte | nat | bool | string | fact | array | record | alt =>
          first
          | rfl
          | exact (Outcome.stateT_throw_ok_iff.mp h).elim
  | array elem ih =>
      cases v with
      | array vs =>
          rw [encodeJson] at h
          obtain ⟨js, t, hjs, -⟩ := Outcome.stateT_bind_ok_iff.mp h
          exact conforms_array_iff.mpr ⟨vs, rfl, encodeItems_conform ih hjs⟩
      | _ => exact (Outcome.stateT_throw_ok_iff.mp h).elim
  | record fields ih =>
      cases v with
      | record vs =>
          rw [encodeJson] at h
          split at h
          · obtain ⟨members, t, hmembers, -⟩ := Outcome.stateT_bind_ok_iff.mp h
            exact conforms_record_iff.mpr
              ⟨vs, rfl, encodeFields_conform (fun f hf => ih f hf) ‹_› hmembers⟩
          · exact (Outcome.stateT_throw_ok_iff.mp h).elim
      | _ => exact (Outcome.stateT_throw_ok_iff.mp h).elim
  | sum alts ih =>
      cases v with
      | alt i w =>
          rw [encodeJson] at h
          cases halt : alts[i.toNat]? with
          | none =>
              simp only [halt] at h
              exact (Outcome.stateT_throw_ok_iff.mp h).elim
          | some alt =>
              simp only [halt] at h
              obtain ⟨payload, t, hpayload, -⟩ := Outcome.stateT_bind_ok_iff.mp h
              have hw := ih alt (List.mem_of_getElem? halt) hpayload
              exact conforms_sum_iff.mpr ⟨i, w, rfl, alt, halt, hw⟩
      | _ => exact (Outcome.stateT_throw_ok_iff.mp h).elim

theorem exists_toJson_iff {ty : Ty} {v : Value} : (∃ j, ty.toJson v = .ok j) ↔ ty.Conforms v := by
  constructor
  · rintro ⟨j, h⟩
    obtain ⟨⟨j', u⟩, hencode, -⟩ := Outcome.map_ok_iff.mp h
    exact encodeJson_conforms hencode
  · intro h
    obtain ⟨j, hform, -⟩ := exists_roundtrips h
    exact ⟨j, hform.toJson_eq⟩

/-- For a type with distinct names and defaults that conform: a value can be written exactly if the
check accepts it; what is written is read back as the value, by whoever reads `{"id": n}` as the
fact `n`; and what is read from any document, however references are read, the check accepts, so it
can be written again. An alternative is read by its index, which must be one of 32 bits. -/
theorem check_write_read_agree (ty : Ty) (hnames : ty.Every DistinctNames)
    (hdefaults : ty.Every DefaultsConform) :
    (∀ v, (∃ j, ty.toJson v = .ok j) ↔ ty.check v = .ok ()) ∧
    (∀ v j, ty.toJson v = .ok j → v.Short → ∀ (τ : Type) (read : ReadReference τ),
      (∀ s id p, ∃ s', read id.toJson p s = .ok (id, s')) →
      ∀ path s, ∃ s', ty.decodeJson read path j s = .ok (v, s')) ∧
    (ty.Every Narrow → ∀ (τ : Type) (read : ReadReference τ) path j s w s',
      ty.decodeJson read path j s = .ok (w, s') →
      ty.check w = .ok () ∧ ∃ j', ty.toJson w = .ok j') := by
  refine ⟨fun v => exists_toJson_iff, fun v j hj hshort τ read hread path s => ?_,
    fun hnarrow τ read path j s w s' h => ?_⟩
  · obtain ⟨j', hform, hback⟩ := exists_roundtrips (exists_toJson_iff.mp ⟨j, hj⟩)
    obtain rfl : j' = j := Except.ok.inj (hform.toJson_eq.symm.trans hj)
    have hanswers : Answers read (fun _ => True) (ty.positions v) := fun e _ s _ => by
      obtain ⟨s', hs'⟩ := hread s e.2 e.1
      exact ⟨s', hs', trivial⟩
    obtain ⟨s', hs', -⟩ := hback hnames hshort hanswers path s trivial
    exact ⟨s', hs'⟩
  · have hty : ty.Every Convertible := (hdefaults.and hnarrow).mono fun _ h => ⟨h.1, h.2⟩
    have hw := decodeJson_conforms hty h
    exact ⟨hw, exists_toJson_iff.mpr hw⟩

/-- A type with a reference, a default and a choice, and a value of it. -/
def postTy : Ty :=
  .record [⟨"author", .predicate ⟨"a.P", 1⟩, none⟩,
    ⟨"state", .sum [⟨"draft", .unit, none⟩, ⟨"since", .nat, none⟩], some (.alt 0 .unit)⟩,
    ⟨"tags", .array .string, none⟩]

def post : Value := .record [.fact ⟨1024⟩, .alt 1 (.nat 7), .array [.string "x", .string "y"]]

/-- Read `{"id": n}` as the fact `n`, and count. -/
def countReferences : ReadReference Nat := fun j _ n =>
  match j with
  | .object [("id", .nat id)] => .ok (⟨id⟩, n + 1)
  | _ => .error .notAFactId

/-- What is left out of the document takes its default, and the choice is given by its name. -/
theorem check_write_read_agree_post :
    (∃ j n, postTy.toJson post = .ok j ∧ postTy.decodeJson countReferences [] j 0 = .ok (post, n)) ∧
    ∃ w n j, postTy.decodeJson countReferences []
      (.object [("state", .string "draft"), ("author", .object [("id", .nat 1025)])]) 0 = .ok (w, n) ∧
      postTy.toJson w = .ok j := by
  obtain ⟨hwrite, hback, hread⟩ := check_write_read_agree postTy (by decide) (by decide)
  obtain ⟨j, hj⟩ := (hwrite post).mpr (by decide)
  obtain ⟨n, hn⟩ := hback post j hj (by decide) Nat countReferences (fun s _ _ => ⟨s + 1, rfl⟩) [] 0
  have hshort : postTy.decodeJson countReferences []
      (.object [("state", .string "draft"), ("author", .object [("id", .nat 1025)])]) 0 =
        .ok (.record [.fact ⟨1025⟩, .alt 0 .unit, .array []], 1) := rfl
  obtain ⟨-, j', hj'⟩ := hread (by decide) Nat countReferences [] _ 0 _ 1 hshort
  exact ⟨⟨j, n, hj, hn⟩, _, 1, j', hshort, hj'⟩

end Ty

end Factbase
