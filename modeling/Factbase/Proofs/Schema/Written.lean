import Factbase.Proofs.Outcome
import Factbase.Proofs.Schema.Conformance
import Factbase.Schema.ValueJson

/-!
# Values as JSON are read back

A value of a type has a JSON form, and reading the form gives the value
again, as long as the reader knows the references in it: whatever state
the reader keeps, it may change it, if it knows them in the next state
too (`Ty.Answers`). `Ty.Written` is for a reader that stays in its state.

The names in a type must be distinct, since a field is looked up by its
name and an alternative is the first of its name; and strings must not be
longer than what is read. Neither matters to writing.
-/

namespace Factbase

namespace Value

mutual
/-- The strings in a value. -/
def strings : Value → List String
  | .string s => [s]
  | .array items => stringsAll items
  | .record fields => stringsAll fields
  | .alt _ payload => payload.strings
  | .byte _ | .nat _ | .bool _ | .fact _ => []

/-- The strings in the values of a list. -/
def stringsAll : List Value → List String
  | [] => []
  | v :: vs => v.strings ++ stringsAll vs
end

theorem mem_stringsAll {vs : List Value} {s : String} :
    s ∈ stringsAll vs ↔ ∃ v ∈ vs, s ∈ v.strings := by
  induction vs with
  | nil => simp [stringsAll]
  | cons v vs ih => simp [stringsAll, ih]

/-- No string in a value is longer than what a fact may hold. -/
def Short (v : Value) : Prop := ∀ s ∈ v.strings, s.utf8ByteSize ≤ Ty.maxStringBytes

instance (v : Value) : Decidable v.Short := inferInstanceAs (Decidable (∀ s ∈ v.strings, _))

theorem Short.of_mem {vs : List Value} (h : ∀ s ∈ stringsAll vs, s.utf8ByteSize ≤ Ty.maxStringBytes)
    {v : Value} (hv : v ∈ vs) : v.Short :=
  fun s hs => h s (mem_stringsAll.mpr ⟨v, hv, hs⟩)

end Value

namespace Ty

/-- In states with a property a reader reads the reference to each of the facts as that fact,
at the predicate that goes with it, and comes to such a state again. -/
def Answers {σ : Type} (read : ReadReference σ) (I : σ → Prop) (refs : List (Predicate × FactId)) :
    Prop :=
  ∀ e ∈ refs, ∀ s, I s → ∃ s', read e.2.toJson e.1 s = .ok (e.2, s') ∧ I s'

/-- A reader knows references: it reads the reference to each of the facts as that fact,
at the predicate that goes with it, and stays in its state. -/
def Knows {σ : Type} (read : ReadReference σ) (s : σ) (refs : List (Predicate × FactId)) : Prop :=
  ∀ e ∈ refs, read e.2.toJson e.1 s = .ok (e.2, s)

theorem Knows.answers {σ : Type} {read : ReadReference σ} {s : σ} {refs : List (Predicate × FactId)}
    (h : Knows read s refs) : Answers read (· = s) refs :=
  fun e he _ hs => ⟨s, hs ▸ h e he, rfl⟩

/-- A document is the JSON form of a value of a type. -/
def Form (ty : Ty) (v : Value) (j : Json) : Prop :=
  ∀ path, encodeJson opaqueReference path ty v () = .ok (j, ())

/-- A document is read as a value by every reader that knows the references of the value. -/
def ReadBack (ty : Ty) (v : Value) (j : Json) : Prop :=
  ∀ {σ : Type} {read : ReadReference σ} {I : σ → Prop}, Answers read I (ty.positions v) →
    ∀ path s, I s → ∃ s', decodeJson read path ty j s = .ok (v, s') ∧ I s'

/-- A document is the JSON form of a value of a type, and is read back as the value. -/
structure Written (ty : Ty) (v : Value) (j : Json) : Prop where
  encode : ∀ path, encodeJson opaqueReference path ty v () = .ok (j, ())
  decode : ∀ {σ : Type} {read : ReadReference σ} {s : σ}, Knows read s (ty.positions v) →
    ∀ path, decodeJson read path ty j s = .ok (v, s)

theorem Form.toJson_eq {ty : Ty} {v : Value} {j : Json} (h : Form ty v j) : ty.toJson v = .ok j :=
  Outcome.map_ok_iff.mpr ⟨(j, ()), h [], rfl⟩

theorem Written.toJson_eq {ty : Ty} {v : Value} {j : Json} (h : Written ty v j) :
    ty.toJson v = .ok j :=
  Form.toJson_eq h.encode

/-- The JSON form of a value, which is read back if the names in the type are distinct and the
strings in the value are not too long. -/
def Roundtrips (ty : Ty) (v : Value) (j : Json) : Prop :=
  Form ty v j ∧ (ty.Every DistinctNames → v.Short → ReadBack ty v j)

/-! ## Items, fields and alternatives -/

theorem exists_formItems {elem : Ty} {vs : List Value} (h : ∀ v ∈ vs, ∃ j, Roundtrips elem v j) :
    ∃ js, (∀ path, encodeItems opaqueReference path elem vs () = .ok (js, ())) ∧
      (elem.Every DistinctNames → (∀ v ∈ vs, v.Short) →
        ∀ {σ : Type} {read : ReadReference σ} {I : σ → Prop},
          Answers read I (positionsOfItems elem vs) → ∀ path s, I s →
            ∃ s', js.mapM (decodeJson read path elem) s = .ok (vs, s') ∧ I s') := by
  induction vs with
  | nil => exact ⟨[], fun _ => rfl, fun _ _ _ _ _ _ _ s hs => ⟨s, rfl, hs⟩⟩
  | cons v vs ih =>
      obtain ⟨⟨j, hform, hback⟩, hvs⟩ := List.forall_mem_cons.mp h
      obtain ⟨js, hencode, hdecode⟩ := ih hvs
      refine ⟨j :: js, fun path => ?_, fun hnames hshort {σ read I} hanswers path s hs => ?_⟩
      · rw [encodeItems]
        refine Outcome.stateT_bind_ok_iff.mpr ⟨j, (), hform path, ?_⟩
        exact Outcome.stateT_bind_ok_iff.mpr ⟨js, (), hencode path, rfl⟩
      · obtain ⟨hshort, hshorts⟩ := List.forall_mem_cons.mp hshort
        obtain ⟨hv, hrest⟩ := List.forall_mem_append.mp hanswers
        obtain ⟨t, ht, hI⟩ := hback hnames hshort hv path s hs
        obtain ⟨u, hu, hI⟩ := hdecode hnames hshorts hrest path t hI
        rw [List.mapM_cons]
        refine ⟨u, Outcome.stateT_bind_ok_iff.mpr ⟨v, t, ht, ?_⟩, hI⟩
        exact Outcome.stateT_bind_ok_iff.mpr ⟨vs, u, hu, rfl⟩

/-- The members of a record are named as its fields; read from among any members that have
them, they give the values of the fields. -/
theorem exists_formFields {fields : List Field} {vs : List Value}
    (h : List.Forall₂ (fun (f : Field) v => ∃ j, Roundtrips f.ty v j) fields vs) :
    ∃ members : List (String × Json), members.map (·.1) = fields.map (·.name) ∧
      (∀ path, encodeFields opaqueReference path fields vs () = .ok (members, ())) ∧
      ((∀ f ∈ fields, f.ty.Every DistinctNames) → (∀ v ∈ vs, v.Short) →
        ∀ {σ : Type} {read : ReadReference σ} {I : σ → Prop} {all : List (String × Json)},
          (∀ m ∈ members, all.lookup m.1 = some m.2) →
          Answers read I (positionsOfFields fields vs) → ∀ path s, I s →
            ∃ s', decodeFields read path fields all s = .ok (vs, s') ∧ I s') := by
  induction h with
  | nil => exact ⟨[], rfl, fun _ => rfl, fun _ _ _ _ _ _ _ _ _ s hs => ⟨s, rfl, hs⟩⟩
  | @cons f v fields vs hf _ ih =>
      obtain ⟨j, hform, hback⟩ := hf
      obtain ⟨members, hmembers, hencode, hdecode⟩ := ih
      refine ⟨(f.name, j) :: members, by rw [List.map_cons, List.map_cons, hmembers],
        fun path => ?_, fun hnames hshort {σ read I all} hlookup hanswers path s hs => ?_⟩
      · rw [encodeFields]
        refine Outcome.stateT_bind_ok_iff.mpr ⟨j, (), hform _, ?_⟩
        exact Outcome.stateT_bind_ok_iff.mpr ⟨members, (), hencode path, rfl⟩
      · obtain ⟨hname, hnames⟩ := List.forall_mem_cons.mp hnames
        obtain ⟨hshort, hshorts⟩ := List.forall_mem_cons.mp hshort
        obtain ⟨hv, hrest⟩ := List.forall_mem_append.mp hanswers
        obtain ⟨hthis, hothers⟩ := List.forall_mem_cons.mp hlookup
        obtain ⟨t, ht, hI⟩ := hback hname hshort hv (path ++ [f.name]) s hs
        obtain ⟨u, hu, hI⟩ := hdecode hnames hshorts hothers hrest path t hI
        obtain ⟨name, ty, declared⟩ := f
        rw [decodeFields, hthis]
        refine ⟨u, Outcome.stateT_bind_ok_iff.mpr ⟨v, t, ht, ?_⟩, hI⟩
        exact Outcome.stateT_bind_ok_iff.mpr ⟨vs, u, hu, rfl⟩

/-- Among members with names of their own each is found by its name. -/
theorem lookup_of_mem {members : List (String × Json)} (hnodup : (members.map (·.1)).Nodup)
    {m : String × Json} (hm : m ∈ members) : members.lookup m.1 = some m.2 := by
  induction members with
  | nil => cases hm
  | cons m' members ih =>
      rw [List.map_cons, List.nodup_cons] at hnodup
      rcases List.mem_cons.mp hm with rfl | hm
      · exact List.lookup_cons_self
      · have hne : (m.1 == m'.1) = false := by
          refine beq_false_of_ne fun heq => hnodup.1 ?_
          rw [← heq]
          exact List.mem_map.mpr ⟨m, hm, rfl⟩
        rw [List.lookup_cons, hne]
        exact ih hnodup.2 hm

/-- An alternative is found by its name, `n` being the number of those that were passed. -/
theorem decodeAlternative_eq {σ : Type} {read : ReadReference σ} {path : List String} {j : Json}
    {alts : List Field} (hnodup : (alts.map (·.name)).Nodup) {i : Nat} {alt : Field}
    (hi : alts[i]? = some alt) (n : Nat) :
    decodeAlternative read path alt.name j n alts =
      .alt (UInt32.ofNat (n + i)) <$> decodeJson read (path ++ [alt.name]) alt.ty j := by
  induction alts generalizing i n with
  | nil => cases hi
  | cons first alts ih =>
      obtain ⟨name, ty, declared⟩ := first
      rw [List.map_cons, List.nodup_cons] at hnodup
      rw [decodeAlternative]
      cases i with
      | zero =>
          obtain rfl := Option.some.inj hi
          rw [if_pos rfl, Nat.add_zero]
      | succ i =>
          have hmem : alt ∈ alts := List.mem_of_getElem? hi
          have hne : name ≠ alt.name := fun heq =>
            hnodup.1 (List.mem_map.mpr ⟨alt, hmem, heq.symm⟩)
          rw [if_neg hne, ih hnodup.2 (by simpa using hi) (n + 1)]
          congr 3
          omega

/-! ## Values -/

/-- A value of a type can be written, and is read back. -/
theorem exists_roundtrips {ty : Ty} {v : Value} (hv : ty.Conforms v) : ∃ j, Roundtrips ty v j := by
  induction ty using inductOn generalizing v with
  | byte =>
      obtain ⟨n, rfl⟩ := conforms_byte_iff.mp hv
      have hlt : n.toUInt64.toNat < 256 := by simpa using n.toNat_lt
      refine ⟨.nat n.toUInt64, fun _ => rfl, fun _ _ _ _ _ _ path s hs => ⟨s, ?_, hs⟩⟩
      rw [decodeJson, if_pos hlt, UInt8.toUInt8_toUInt64]
      rfl
  | nat =>
      obtain ⟨n, rfl⟩ := conforms_nat_iff.mp hv
      exact ⟨.nat n, fun _ => rfl, fun _ _ _ _ _ _ _ s hs => ⟨s, rfl, hs⟩⟩
  | bool =>
      obtain ⟨b, rfl⟩ := conforms_bool_iff.mp hv
      exact ⟨.bool b, fun _ => rfl, fun _ _ _ _ _ _ _ s hs => ⟨s, rfl, hs⟩⟩
  | string =>
      obtain ⟨t, rfl⟩ := conforms_string_iff.mp hv
      refine ⟨.string t, fun _ => rfl, fun _ hshort _ _ _ _ path s hs => ⟨s, ?_, hs⟩⟩
      have hlen : ¬ t.utf8ByteSize > maxStringBytes := by
        have := hshort t (by simp [Value.strings])
        omega
      rw [decodeJson, if_neg hlen]
      rfl
  | predicate p =>
      obtain ⟨id, rfl⟩ := conforms_predicate_iff.mp hv
      refine ⟨id.toJson, fun _ => rfl, fun _ _ _ _ _ hanswers path s hs => ?_⟩
      obtain ⟨t, hread, hI⟩ := hanswers (p, id) (by simp [positions]) s hs
      refine ⟨t, ?_, hI⟩
      simp only [decodeJson]
      rw [hread]
  | array elem ih =>
      obtain ⟨vs, rfl, hvs⟩ := conforms_array_iff.mp hv
      obtain ⟨js, hencode, hdecode⟩ := exists_formItems fun w hw => ih (hvs w hw)
      refine ⟨.array js, fun path => ?_, fun hnames hshort {σ read I} hanswers path s hs => ?_⟩
      · rw [encodeJson]
        exact Outcome.stateT_bind_ok_iff.mpr ⟨js, (), hencode path, rfl⟩
      · obtain ⟨t, ht, hI⟩ := hdecode hnames.2 (fun w hw => Value.Short.of_mem hshort hw) hanswers
          path s hs
        rw [decodeJson]
        exact ⟨t, Outcome.stateT_bind_ok_iff.mpr ⟨vs, t, ht, rfl⟩, hI⟩
  | record fields ih =>
      obtain ⟨vs, rfl, hvs⟩ := conforms_record_iff.mp hv
      have hfields : List.Forall₂ (fun (f : Field) w => ∃ j, Roundtrips f.ty w j) fields vs := by
        refine List.forall₂_iff_zip.mpr ⟨hvs.length_eq, fun {f w} hfw => ?_⟩
        exact ih f (List.of_mem_zip hfw).1 ((List.forall₂_iff_zip.mp hvs).2 hfw)
      obtain ⟨members, hmembers, hencode, hdecode⟩ := exists_formFields hfields
      refine ⟨.object members, fun path => ?_, fun hnames hshort {σ read I} hanswers path s hs => ?_⟩
      · rw [encodeJson, if_pos hvs.length_eq]
        exact Outcome.stateT_bind_ok_iff.mpr ⟨members, (), hencode path, rfl⟩
      · have hknown : (members.find? fun m => fields.all fun f => f.name ≠ m.1) = none := by
          refine List.find?_eq_none.mpr fun m hm hall => ?_
          have hname : m.1 ∈ fields.map (·.name) := hmembers ▸ List.mem_map.mpr ⟨m, hm, rfl⟩
          obtain ⟨f, hf, heq⟩ := List.mem_map.mp hname
          exact of_decide_eq_true (List.all_eq_true.mp hall f hf) heq
        have hnodup : (members.map (·.1)).Nodup := hmembers ▸ hnames.1
        obtain ⟨t, ht, hI⟩ := hdecode (everyField_iff.mp hnames.2)
          (fun w hw => Value.Short.of_mem hshort hw) (fun m hm => lookup_of_mem hnodup hm) hanswers
          path s hs
        rw [decodeJson, hknown]
        exact ⟨t, Outcome.stateT_bind_ok_iff.mpr ⟨vs, t, ht, rfl⟩, hI⟩
  | sum alts ih =>
      obtain ⟨i, w, rfl, alt, halt, hw⟩ := conforms_sum_iff.mp hv
      have hmem := List.mem_of_getElem? halt
      obtain ⟨j, hform, hback⟩ := ih alt hmem hw
      refine ⟨.object [(alt.name, j)], fun path => ?_,
        fun hnames hshort {σ read I} hanswers path s hs => ?_⟩
      · rw [encodeJson, halt]
        exact Outcome.stateT_bind_ok_iff.mpr ⟨j, (), hform _, rfl⟩
      · rw [positions, halt] at hanswers
        obtain ⟨t, ht, hI⟩ := hback (everyField_iff.mp hnames.2 alt hmem) hshort hanswers
          (path ++ [alt.name]) s hs
        rw [decodeJson, decodeAlternative_eq hnames.1 halt 0]
        refine ⟨t, Outcome.stateT_map_ok_iff.mpr ⟨w, ht, ?_⟩, hI⟩
        simp

/-- A value of a type whose names are distinct is read back by a reader that stays in its state. -/
theorem exists_written {ty : Ty} {v : Value} (hnames : ty.Every DistinctNames)
    (hv : ty.Conforms v) (hshort : v.Short) : ∃ j, Written ty v j := by
  obtain ⟨j, hform, hback⟩ := exists_roundtrips hv
  refine ⟨j, hform, fun {σ read s} hknows path => ?_⟩
  obtain ⟨s', hdecode, rfl⟩ := hback hnames hshort hknows.answers path s rfl
  exact hdecode

end Ty

end Factbase
