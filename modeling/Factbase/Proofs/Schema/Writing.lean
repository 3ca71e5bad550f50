import Factbase.Proofs.Schema.Registry
import Factbase.Schema.ValueJson

/-!
# What the writing of a value depends on

How a value of a type is written depends only on how the references at its
positions are written (`Ty.encodeJson_congr`). Each of them is a reference
of the value, and stands where the type has a predicate.
-/

namespace Factbase

theorem Value.mem_referencesAll {vs : List Value} {w : Value} {id : FactId} (hw : w ∈ vs)
    (h : id ∈ w.references) : id ∈ referencesAll vs := by
  induction vs with
  | nil => cases hw
  | cons v vs ih =>
      rcases List.mem_cons.mp hw with rfl | hw
      · exact List.mem_append_left _ h
      · exact List.mem_append_right _ (ih hw)

namespace Ty

/-! ## Positions -/

theorem mem_positionsOfFields {fields : List Field} {vs : List Value} {e : Predicate × FactId}
    (h : e ∈ positionsOfFields fields vs) :
    ∃ f ∈ fields, ∃ v ∈ vs, e ∈ f.ty.positions v := by
  induction vs generalizing fields with
  | nil =>
      cases fields <;> cases h
  | cons v vs ih =>
      cases fields with
      | nil => cases h
      | cons f fields =>
          rcases List.mem_append.mp h with h | h
          · exact ⟨f, List.mem_cons_self .., v, List.mem_cons_self .., h⟩
          · obtain ⟨g, hg, w, hw, h⟩ := ih h
            exact ⟨g, List.mem_cons_of_mem _ hg, w, List.mem_cons_of_mem _ hw, h⟩

/-- What stands at a position is a reference of the value, to a predicate of the type. -/
theorem mem_positions {ty : Ty} {v : Value} {e : Predicate × FactId} (h : e ∈ ty.positions v) :
    e.1 ∈ ty.predicates ∧ e.2 ∈ v.references := by
  induction ty using inductOn generalizing v with
  | byte | nat | bool | string => cases v <;> cases h
  | predicate p =>
      cases v with
      | fact id =>
          obtain rfl := List.mem_singleton.mp h
          exact ⟨List.mem_singleton_self p, List.mem_singleton_self id⟩
      | _ => cases h
  | array elem ih =>
      cases v with
      | array vs =>
          obtain ⟨w, hw, h⟩ := mem_positionsOfItems.mp h
          exact (ih h).imp_right (Value.mem_referencesAll hw)
      | _ => cases h
  | record fields ih =>
      cases v with
      | record vs =>
          obtain ⟨f, hf, w, hw, h⟩ := mem_positionsOfFields h
          exact (ih f hf h).imp (fun h => mem_predicatesOf.mpr ⟨f, hf, h⟩) (Value.mem_referencesAll hw)
      | _ => cases h
  | sum alts ih =>
      cases v with
      | alt i w =>
          rw [positions] at h
          cases halt : alts[i.toNat]? with
          | none =>
              rw [halt] at h
              cases h
          | some alt =>
              rw [halt] at h
              have hmem := List.mem_of_getElem? halt
              exact (ih alt hmem h).imp_left fun h => mem_predicatesOf.mpr ⟨alt, hmem, h⟩
      | _ => cases h

/-! ## Writing -/

variable {τ : Type} {write write' : WriteReference τ}

mutual
/-- How a value is written depends only on how the references at its positions are written. -/
theorem encodeJson_congr : (v : Value) → (ty : Ty) → (path : List String) →
    (∀ e ∈ ty.positions v, write e.2 e.1 = write' e.2 e.1) →
    ty.encodeJson write path v = ty.encodeJson write' path v
  | .byte n, ty, path, _ => by cases ty <;> rfl
  | .nat n, ty, path, _ => by cases ty <;> rfl
  | .bool b, ty, path, _ => by cases ty <;> rfl
  | .string str, ty, path, _ => by cases ty <;> rfl
  | .fact id, ty, path, h => by
      cases ty with
      | predicate p => exact congrFun (h (p, id) (List.mem_singleton_self _)) path
      | _ => rfl
  | .array items, ty, path, h => by
      cases ty with
      | array elem => rw [encodeJson, encodeJson, encodeItems_congr items elem path h]
      | _ => rfl
  | .record values, ty, path, h => by
      cases ty with
      | record fields => rw [encodeJson, encodeJson, encodeFields_congr values fields path h]
      | _ => rfl
  | .alt index payload, ty, path, h => by
      cases ty with
      | sum alts =>
          rw [encodeJson, encodeJson]
          rw [positions] at h
          cases halt : alts[index.toNat]? with
          | none => rfl
          | some alt =>
              rw [halt] at h
              dsimp only
              rw [encodeJson_congr payload alt.ty _ h]
      | _ => rfl

theorem encodeItems_congr : (items : List Value) → (elem : Ty) → (path : List String) →
    (∀ e ∈ positionsOfItems elem items, write e.2 e.1 = write' e.2 e.1) →
    encodeItems write path elem items = encodeItems write' path elem items
  | [], elem, path, _ => rfl
  | v :: vs, elem, path, h => by
      obtain ⟨hv, hvs⟩ := List.forall_mem_append.mp h
      rw [encodeItems, encodeItems, encodeJson_congr v elem path hv, encodeItems_congr vs elem path hvs]

theorem encodeFields_congr : (values : List Value) → (fields : List Field) → (path : List String) →
    (∀ e ∈ positionsOfFields fields values, write e.2 e.1 = write' e.2 e.1) →
    encodeFields write path fields values = encodeFields write' path fields values
  | [], fields, path, _ => by cases fields <;> rfl
  | v :: vs, [], path, _ => rfl
  | v :: vs, f :: fs, path, h => by
      obtain ⟨hv, hvs⟩ := List.forall_mem_append.mp h
      rw [encodeFields, encodeFields, encodeJson_congr v f.ty _ hv, encodeFields_congr vs fs path hvs]
end

end Ty

end Factbase
