import Factbase.Proofs.Schema.Conformance

/-!
# Compatible types

A query compares values of two types where these are compatible: they
have the same shape and the same names, while the versions of references
and the defaults may differ. So being compatible is an equivalence. And
neither of these shows in a value, so compatible types have the same
values.
-/

namespace Factbase

namespace Ty

section Shapes

attribute [local simp] compatible compatibleFields

theorem compatible_array_iff {a b : Ty} :
    (array a).compatible b = true ↔ ∃ b', b = .array b' ∧ a.compatible b' = true := by
  cases b <;> simp

theorem compatible_record_iff {fields : List Field} {b : Ty} :
    (record fields).compatible b = true ↔
      ∃ fields', b = .record fields' ∧ compatibleFields fields fields' = true := by
  cases b <;> simp

theorem compatible_sum_iff {alts : List Field} {b : Ty} :
    (sum alts).compatible b = true ↔
      ∃ alts', b = .sum alts' ∧ compatibleFields alts alts' = true := by
  cases b <;> simp

theorem compatible_predicate_iff {p : Predicate} {b : Ty} :
    (predicate p).compatible b = true ↔ ∃ q, b = .predicate q ∧ p.name = q.name := by
  cases b <;> simp

/-- Compatible fields have the same names in the same order, and compatible types. -/
theorem compatibleFields_iff {as bs : List Field} :
    compatibleFields as bs = true ↔
      List.Forall₂ (fun (a b : Field) => a.name = b.name ∧ a.ty.compatible b.ty = true) as bs := by
  induction as generalizing bs with
  | nil => cases bs <;> simp
  | cons a as ih =>
      cases bs with
      | nil => simp
      | cons b bs =>
          obtain ⟨n, t, d⟩ := a
          obtain ⟨m, u, e⟩ := b
          simp [List.forall₂_cons, ih]

end Shapes

theorem compatible_refl (a : Ty) : a.compatible a = true := by
  induction a using inductOn with
  | byte | nat | bool | string => rfl
  | predicate p => exact compatible_predicate_iff.mpr ⟨p, rfl, rfl⟩
  | array a ih => exact compatible_array_iff.mpr ⟨a, rfl, ih⟩
  | record as ih =>
      refine compatible_record_iff.mpr ⟨as, rfl, compatibleFields_iff.mpr ?_⟩
      exact List.forall₂_same.mpr fun a ha => ⟨rfl, ih a ha⟩
  | sum as ih =>
      refine compatible_sum_iff.mpr ⟨as, rfl, compatibleFields_iff.mpr ?_⟩
      exact List.forall₂_same.mpr fun a ha => ⟨rfl, ih a ha⟩

/-- What holds of compatible types holds of compatible fields, side by side. -/
theorem forall₂_of_compatibleFields {R : Ty → Ty → Prop} {as bs : List Field}
    (ih : ∀ f ∈ as, ∀ b, f.ty.compatible b = true → R f.ty b) (h : compatibleFields as bs = true) :
    List.Forall₂ (fun a b : Field => a.name = b.name ∧ R a.ty b.ty) as bs := by
  rw [compatibleFields_iff] at h
  induction h with
  | nil => exact .nil
  | cons hab _ ihs =>
      obtain ⟨iha, ihas⟩ := List.forall_mem_cons.mp ih
      exact .cons ⟨hab.1, iha _ hab.2⟩ (ihs ihas)

theorem compatibleFields_symm {as bs : List Field}
    (ih : ∀ f ∈ as, ∀ b, f.ty.compatible b = true → b.compatible f.ty = true)
    (h : compatibleFields as bs = true) : compatibleFields bs as = true := by
  have hall := forall₂_of_compatibleFields (R := fun a b => b.compatible a = true) ih h
  rw [compatibleFields_iff]
  exact (hall.imp fun _ _ hab => ⟨hab.1.symm, hab.2⟩).flip

theorem compatible_symm {a b : Ty} (h : a.compatible b = true) : b.compatible a = true := by
  induction a using inductOn generalizing b with
  | byte | nat | bool | string => cases b <;> first | rfl | cases h
  | predicate p =>
      rw [compatible_predicate_iff] at h
      obtain ⟨q, rfl, hname⟩ := h
      rw [compatible_predicate_iff]
      exact ⟨p, rfl, hname.symm⟩
  | array a ih =>
      rw [compatible_array_iff] at h
      obtain ⟨b, rfl, hab⟩ := h
      rw [compatible_array_iff]
      exact ⟨a, rfl, ih hab⟩
  | record as ih =>
      rw [compatible_record_iff] at h
      obtain ⟨bs, rfl, hab⟩ := h
      rw [compatible_record_iff]
      exact ⟨as, rfl, compatibleFields_symm (fun f hf b hb => ih f hf hb) hab⟩
  | sum as ih =>
      rw [compatible_sum_iff] at h
      obtain ⟨bs, rfl, hab⟩ := h
      rw [compatible_sum_iff]
      exact ⟨as, rfl, compatibleFields_symm (fun f hf b hb => ih f hf hb) hab⟩

theorem compatibleFields_trans {as bs cs : List Field}
    (ih : ∀ f ∈ as, ∀ b, f.ty.compatible b = true → ∀ c, b.compatible c = true → f.ty.compatible c = true)
    (hab : compatibleFields as bs = true) (hbc : compatibleFields bs cs = true) :
    compatibleFields as cs = true := by
  have hall := forall₂_of_compatibleFields
    (R := fun a b => ∀ c, b.compatible c = true → a.compatible c = true) ih hab
  clear ih hab
  rw [compatibleFields_iff] at hbc ⊢
  induction hall generalizing cs with
  | nil =>
      obtain rfl := List.forall₂_nil_left_iff.mp hbc
      exact .nil
  | cons hhead _ ihs =>
      obtain ⟨c, cs, hfirst, hrest, rfl⟩ := List.forall₂_cons_left_iff.mp hbc
      exact .cons ⟨hhead.1.trans hfirst.1, hhead.2 _ hfirst.2⟩ (ihs hrest)

theorem compatible_trans {a b c : Ty} (hab : a.compatible b = true) (hbc : b.compatible c = true) :
    a.compatible c = true := by
  induction a using inductOn generalizing b c with
  | byte | nat | bool | string => cases b <;> first | exact hbc | cases hab
  | predicate p =>
      rw [compatible_predicate_iff] at hab
      obtain ⟨q, rfl, hpq⟩ := hab
      rw [compatible_predicate_iff] at hbc ⊢
      obtain ⟨r, rfl, hqr⟩ := hbc
      exact ⟨r, rfl, hpq.trans hqr⟩
  | array a ih =>
      rw [compatible_array_iff] at hab
      obtain ⟨b, rfl, hab⟩ := hab
      rw [compatible_array_iff] at hbc ⊢
      obtain ⟨c, rfl, hbc⟩ := hbc
      exact ⟨c, rfl, ih hab hbc⟩
  | record as ih =>
      rw [compatible_record_iff] at hab
      obtain ⟨bs, rfl, hab⟩ := hab
      rw [compatible_record_iff] at hbc ⊢
      obtain ⟨cs, rfl, hbc⟩ := hbc
      exact ⟨cs, rfl, compatibleFields_trans (fun f hf b hb c hc => ih f hf hb hc) hab hbc⟩
  | sum as ih =>
      rw [compatible_sum_iff] at hab
      obtain ⟨bs, rfl, hab⟩ := hab
      rw [compatible_sum_iff] at hbc ⊢
      obtain ⟨cs, rfl, hbc⟩ := hbc
      exact ⟨cs, rfl, compatibleFields_trans (fun f hf b hb c hc => ih f hf hb hc) hab hbc⟩

/-- Compatible fields have the same values, side by side, where compatible types do. -/
theorem values_of_compatibleFields {as bs : List Field}
    (ih : ∀ f ∈ as, ∀ b, f.ty.compatible b = true → ∀ v, f.ty.Conforms v ↔ b.Conforms v)
    (h : compatibleFields as bs = true) :
    List.Forall₂ (fun a b : Field => ∀ v, a.ty.Conforms v ↔ b.ty.Conforms v) as bs := by
  have hall := forall₂_of_compatibleFields (R := fun a b => ∀ v, a.Conforms v ↔ b.Conforms v) ih h
  exact hall.imp fun _ _ hab => hab.2

theorem conformAll_congr {as bs : List Field}
    (h : List.Forall₂ (fun a b : Field => ∀ v, a.ty.Conforms v ↔ b.ty.Conforms v) as bs)
    {vs : List Value} : ConformAll as vs ↔ ConformAll bs vs := by
  induction h generalizing vs with
  | nil => exact Iff.rfl
  | cons hab _ ih =>
      cases vs with
      | nil => simp [ConformAll]
      | cons v vs =>
          simp only [ConformAll, List.forall₂_cons, hab v] at ih ⊢
          rw [ih]

theorem alternative_congr {as bs : List Field}
    (h : List.Forall₂ (fun a b : Field => ∀ v, a.ty.Conforms v ↔ b.ty.Conforms v) as bs)
    {i : Nat} {w : Value} :
    (∃ alt, as[i]? = some alt ∧ alt.ty.Conforms w) ↔ ∃ alt, bs[i]? = some alt ∧ alt.ty.Conforms w := by
  constructor
  · rintro ⟨a, ha, hw⟩
    obtain ⟨b, hb, hab⟩ := forall₂_getElem? h ha
    exact ⟨b, hb, (hab w).mp hw⟩
  · rintro ⟨b, hb, hw⟩
    obtain ⟨a, ha, hab⟩ := forall₂_getElem? h.flip hb
    exact ⟨a, ha, (hab w).mpr hw⟩

/-- Compatible types have the same values. -/
theorem conforms_of_compatible {a b : Ty} (h : a.compatible b = true) (v : Value) :
    a.Conforms v ↔ b.Conforms v := by
  induction a using inductOn generalizing b v with
  | byte | nat | bool | string => cases b <;> first | exact Iff.rfl | cases h
  | predicate p =>
      obtain ⟨q, rfl, -⟩ := compatible_predicate_iff.mp h
      rw [conforms_predicate_iff, conforms_predicate_iff]
  | array a ih =>
      obtain ⟨b, rfl, hab⟩ := compatible_array_iff.mp h
      simp only [conforms_array_iff, ih hab]
  | record as ih =>
      obtain ⟨bs, rfl, hab⟩ := compatible_record_iff.mp h
      have hvalues := values_of_compatibleFields (fun f hf b hb v => ih f hf hb v) hab
      simp only [conforms_record_iff, conformAll_congr hvalues]
  | sum as ih =>
      obtain ⟨bs, rfl, hab⟩ := compatible_sum_iff.mp h
      have hvalues := values_of_compatibleFields (fun f hf b hb v => ih f hf hb v) hab
      simp only [conforms_sum_iff, alternative_congr hvalues]

end Ty

end Factbase
