import Factbase.Proofs.Outcome
import Factbase.Proofs.Schema.Conformance
import Factbase.Schema.Conversion

/-!
# Converted values are of their type

A conversion between two types that could be prepared applies to every
value of the first, and turns it into a value of the second. The proof
follows the target type: what was prepared for its fields and alternatives
is applied to the parts of the value.

A conversion that was recognised as the identity is left out when values
are converted; it would have given the same value (`apply_array`,
`apply_record`, `apply_sum`).
-/

namespace Factbase

namespace Conversion

theorem isIdentity_iff {c : Conversion} : c.isIdentity = true ↔ c = .identity := by
  cases c <;> simp [isIdentity]

theorem apply_identity (v : Value) : Conversion.identity.apply v = .ok v := by
  rw [apply]

theorem keepsFields_cons {i : Nat} {field : FieldConversion} {fields : List FieldConversion} :
    keepsFields i (field :: fields) = true ↔
      field = .kept i .identity ∧ keepsFields (i + 1) fields = true := by
  cases field with
  | added v => simp [keepsFields]
  | kept j c => cases c <;> simp [keepsFields]

theorem keepsAlts_cons {i : Nat} {alt : UInt32 × Conversion} {alts : List (UInt32 × Conversion)} :
    keepsAlts i (alt :: alts) = true ↔
      (alt.1.toNat = i ∧ alt.2 = .identity) ∧ keepsAlts (i + 1) alts = true := by
  obtain ⟨j, c⟩ := alt
  cases c <;> simp [keepsAlts]

/-- Conversions that keep every field where it is give the fields back. -/
theorem applyFields_keeps {i : Nat} {fields : List FieldConversion} {vs : List Value}
    (h : keepsFields i fields = true) (hlen : i + fields.length = vs.length) :
    applyFields fields vs = .ok (vs.drop i) := by
  induction fields generalizing i with
  | nil =>
      have hall : vs.length ≤ i := Nat.le_of_eq hlen.symm
      rw [applyFields, List.drop_of_length_le hall]
  | cons field fields ih =>
      obtain ⟨rfl, hrest⟩ := keepsFields_cons.mp h
      rw [List.length_cons] at hlen
      have hlt : i < vs.length := by omega
      rw [applyFields, List.getElem?_eq_getElem hlt, ih hrest (by omega),
        List.drop_eq_getElem_cons hlt]
      simp only [apply_identity]
      rfl

/-- Conversions that keep every alternative where it is give the alternative back. -/
theorem applyAlternative_keeps {i : Nat} {alts : List (UInt32 × Conversion)}
    (h : keepsAlts i alts = true) {j : UInt32} {k : Nat} (hj : j.toNat = i + k)
    (hlt : k < alts.length) (payload : Value) :
    applyAlternative alts k payload = .ok (.alt j payload) := by
  induction alts generalizing i k with
  | nil => cases hlt
  | cons alt alts ih =>
      obtain ⟨⟨hindex, hidentity⟩, hrest⟩ := keepsAlts_cons.mp h
      obtain ⟨target, c⟩ := alt
      cases k with
      | zero =>
          obtain rfl : target = j := UInt32.toNat_inj.mp (by simpa using hindex.trans hj.symm)
          obtain rfl : c = .identity := hidentity
          rw [applyAlternative, apply_identity]
          rfl
      | succ k => exact ih hrest (by omega) (by simpa using hlt)

/-! ## Prepared from two types -/

/-- What a conversion between two types can be. -/
theorem between_ok {source target : Ty} {c : Conversion} (h : between source target = .ok c) :
    (source = target ∧ c = .identity) ∨
    (∃ p q, source = .predicate p ∧ target = .predicate q ∧ p.name = q.name ∧ c = .identity) ∨
    (∃ a b c', source = .array a ∧ target = .array b ∧ between a b = .ok c' ∧
      c = if c'.isIdentity then .identity else .array c') ∨
    (∃ sources targets fields, source = .record sources ∧ target = .record targets ∧
      betweenFields sources targets = .ok fields ∧
      c = if fields.length == sources.length && keepsFields 0 fields then .identity
        else .record fields) ∨
    (∃ sources targets alts, source = .sum sources ∧ target = .sum targets ∧
      sources.mapM (fun alt => toAlternative alt.name alt.ty 0 targets) = .ok alts ∧
      c = if alts.length == targets.length && keepsAlts 0 alts then .identity else .sum alts) := by
  rw [between.eq_def] at h
  split at h
  · cases h
    exact .inl ⟨‹_›, rfl⟩
  · right
    split at h
    · rename_i q p _
      split at h
      · rename_i hname
        cases h
        exact .inl ⟨p, q, rfl, rfl, hname, rfl⟩
      · cases h
    · rename_i b a _
      obtain ⟨c', hc', hout⟩ := Outcome.bind_ok_iff.mp h
      cases hout
      exact .inr (.inl ⟨a, b, c', rfl, rfl, hc', rfl⟩)
    · rename_i targets sources _
      obtain ⟨fields, hfields, hout⟩ := Outcome.bind_ok_iff.mp h
      cases hout
      exact .inr (.inr (.inl ⟨sources, targets, fields, rfl, rfl, hfields, rfl⟩))
    · rename_i targets sources _
      obtain ⟨alts, halts, hout⟩ := Outcome.bind_ok_iff.mp h
      cases hout
      exact .inr (.inr (.inr ⟨sources, targets, alts, rfl, rfl, halts, rfl⟩))
    · cases h

/-- Where the first field of a target comes from. -/
theorem betweenFields_cons {sources targets : List Field} {target : Field}
    {fields : List FieldConversion} (h : betweenFields sources (target :: targets) = .ok fields) :
    ∃ field rest, fields = field :: rest ∧ betweenFields sources targets = .ok rest ∧
      ((∃ i f c, Field.locate? target.name sources = some (i, f) ∧ between f.ty target.ty = .ok c ∧
          field = .kept i c) ∨
        (∃ v, Field.locate? target.name sources = none ∧ target.default? = some v ∧
          field = .added v)) := by
  obtain ⟨name, ty, declared⟩ := target
  rw [betweenFields] at h
  cases hloc : Field.locate? name sources with
  | some found =>
      obtain ⟨i, f⟩ := found
      simp only [hloc] at h
      obtain ⟨field, hfield, h⟩ := Outcome.bind_ok_iff.mp h
      obtain ⟨c, hc, rfl⟩ := Outcome.map_ok_iff.mp hfield
      obtain ⟨rest, hrest, hout⟩ := Outcome.bind_ok_iff.mp h
      cases hout
      exact ⟨_, rest, rfl, hrest, .inl ⟨i, f, c, rfl, hc, rfl⟩⟩
  | none =>
      simp only [hloc] at h
      split at h
      · rename_i v hv
        obtain ⟨field, hfield, h⟩ := Outcome.bind_ok_iff.mp h
        cases hfield
        obtain ⟨rest, hrest, hout⟩ := Outcome.bind_ok_iff.mp h
        cases hout
        exact ⟨_, rest, rfl, hrest, .inr ⟨v, rfl, hv, rfl⟩⟩
      · cases h

/-- What is shown of a target type: a conversion to it that could be prepared applies to every
value of the source, and gives a value of the target if conversions to that keep to types. -/
def AppliesAt (target : Ty) : Prop :=
  ∀ source c, between source target = .ok c → ∀ v, source.Conforms v →
    ∃ w, c.apply v = .ok w ∧ (target.Every Ty.Convertible → target.Conforms w)

/-- Fields of the target are found among those of the source, or have a default. -/
theorem betweenFields_applies {sources targets : List Field} {fields : List FieldConversion}
    (happlies : ∀ f ∈ targets, AppliesAt f.ty)
    (h : betweenFields sources targets = .ok fields) {vs : List Value}
    (hvs : Ty.ConformAll sources vs) :
    ∃ ws, applyFields fields vs = .ok ws ∧ ((∀ f ∈ targets, f.ty.Every Ty.Convertible) →
      (∀ f ∈ targets, ∀ v, f.default? = some v → f.ty.Conforms v) → Ty.ConformAll targets ws) := by
  induction targets generalizing fields with
  | nil =>
      cases h
      exact ⟨[], by rw [applyFields], fun _ _ => .nil⟩
  | cons target targets ih =>
      obtain ⟨hhere, hthere⟩ := List.forall_mem_cons.mp happlies
      obtain ⟨field, rest, rfl, hrest, hfield⟩ := betweenFields_cons h
      obtain ⟨ws, hws, hall⟩ := ih hthere hrest
      obtain ⟨i, f, c, hloc, hc, rfl⟩ | ⟨v, -, hv, rfl⟩ := hfield
      · obtain ⟨v, hv, hfit⟩ := forall₂_getElem? hvs (Field.locate?_some hloc)
        obtain ⟨w, hw, hwfit⟩ := hhere f.ty c hc v hfit
        refine ⟨w :: ws, ?_, fun htypes hdefault => ?_⟩
        · rw [applyFields, hv, hws]
          simp only [hw]
          rfl
        · obtain ⟨htype, htypes⟩ := List.forall_mem_cons.mp htypes
          exact .cons (hwfit htype) (hall htypes (List.forall_mem_cons.mp hdefault).2)
      · refine ⟨v :: ws, ?_, fun htypes hdefault => ?_⟩
        · rw [applyFields, hws]
          rfl
        · obtain ⟨hdhere, hdthere⟩ := List.forall_mem_cons.mp hdefault
          exact .cons (hdhere v hv) (hall (List.forall_mem_cons.mp htypes).2 hdthere)

/-- The converted items of an array. -/
theorem items_apply {elem : Ty} {c : Conversion} {source : Ty} (happlies : AppliesAt elem)
    (h : between source elem = .ok c) {vs : List Value} (hvs : ∀ v ∈ vs, source.Conforms v) :
    ∃ ws, vs.mapM c.apply = .ok ws ∧
      (elem.Every Ty.Convertible → ∀ w ∈ ws, elem.Conforms w) := by
  induction vs with
  | nil => exact ⟨[], rfl, by simp⟩
  | cons v vs ih =>
      obtain ⟨hv, hrest⟩ := List.forall_mem_cons.mp hvs
      obtain ⟨w, hw, hfit⟩ := happlies source c h v hv
      obtain ⟨ws, hws, hall⟩ := ih hrest
      refine ⟨w :: ws, ?_, fun helem => List.forall_mem_cons.mpr ⟨hfit helem, hall helem⟩⟩
      rw [List.mapM_cons, hw, hws]
      rfl

/-- The target alternative is the first of that name. -/
theorem toAlternative_ok {name : String} {source : Ty} {index : Nat} {targets : List Field}
    {j : UInt32} {c : Conversion} (h : toAlternative name source index targets = .ok (j, c)) :
    ∃ k alt, targets[k]? = some alt ∧ alt.name = name ∧ j = UInt32.ofNat (index + k) ∧
      between source alt.ty = .ok c := by
  induction targets generalizing index with
  | nil => cases h
  | cons target targets ih =>
      obtain ⟨n, ty, declared⟩ := target
      rw [toAlternative] at h
      by_cases hname : n = name
      · rw [if_pos hname] at h
        obtain ⟨c', hc, hout⟩ := Outcome.map_ok_iff.mp h
        cases hout
        exact ⟨0, ⟨n, ty, declared⟩, rfl, hname, rfl, hc⟩
      · rw [if_neg hname] at h
        obtain ⟨k, alt, halt, hname, hj, hc⟩ := ih h
        exact ⟨k + 1, alt, halt, hname, by rw [hj, Nat.add_assoc, Nat.add_comm 1], hc⟩

theorem applyAlternative_getElem? {alts : List (UInt32 × Conversion)} {k : Nat} {j : UInt32}
    {c : Conversion} (h : alts[k]? = some (j, c)) (payload : Value) :
    applyAlternative alts k payload = Value.alt j <$> c.apply payload := by
  induction alts generalizing k with
  | nil => cases h
  | cons alt alts ih =>
      cases k with
      | zero =>
          obtain rfl := Option.some.inj h
          rw [applyAlternative]
      | succ k => exact ih h

/-- Every alternative of the source has its place in the target. -/
theorem alternatives_apply {sources targets : List Field} {alts : List (UInt32 × Conversion)}
    (happlies : ∀ f ∈ targets, AppliesAt f.ty)
    (h : sources.mapM (fun alt => toAlternative alt.name alt.ty 0 targets) = .ok alts) {v : Value}
    (hv : (Ty.sum sources).Conforms v) :
    ∃ i payload w, v = .alt i payload ∧ i.toNat < alts.length ∧
      applyAlternative alts i.toNat payload = .ok w ∧
      ((Ty.sum targets).Every Ty.Convertible → (Ty.sum targets).Conforms w) := by
  obtain ⟨i, payload, rfl, source, hsource, hfit⟩ := Ty.conforms_sum_iff.mp hv
  obtain ⟨⟨j, c⟩, hc, hto⟩ := forall₂_getElem? (Outcome.mapM_ok_iff.mp h) hsource
  obtain ⟨k, alt, halt, -, rfl, hbetween⟩ := toAlternative_ok hto
  have hmem := List.mem_of_getElem? halt
  obtain ⟨w, hw, hwfit⟩ := happlies alt hmem source.ty c hbetween payload hfit
  rw [Nat.zero_add] at hc
  refine ⟨i, payload, .alt (UInt32.ofNat k) w, rfl, (List.getElem?_eq_some_iff.mp hc).1, ?_,
    fun htarget => ?_⟩
  · rw [applyAlternative_getElem? hc, hw]
    rfl
  · exact Ty.conforms_sum_iff.mpr ⟨_, w, rfl, alt, Ty.alternative_index htarget.1.narrow halt,
      hwfit (Ty.everyField_iff.mp htarget.2 alt hmem)⟩

/-! ## Identities left out -/

/-- The conversion of an array applies the one of its items, also when it is left out. -/
theorem apply_array (c : Conversion) (vs : List Value) :
    (if c.isIdentity then identity else array c).apply (.array vs) =
      Value.array <$> vs.mapM c.apply := by
  split
  · rename_i hidentity
    obtain rfl := isIdentity_iff.mp hidentity
    have hpure : identity.apply = (pure : Value → Except TypeFault Value) := funext apply_identity
    have hsame : vs.mapM identity.apply = .ok vs := by
      rw [hpure]
      exact List.mapM_pure (f := id) |>.trans (by rw [List.map_id]; rfl)
    rw [apply_identity, hsame]
    rfl
  · rw [apply]

/-- The conversion of a record applies those of its fields, also when it is left out. -/
theorem apply_record {fields : List FieldConversion} {vs : List Value} {n : Nat}
    (hlen : vs.length = n) :
    (if fields.length == n && keepsFields 0 fields then identity else record fields).apply
        (.record vs) = Value.record <$> applyFields fields vs := by
  split
  · rename_i hkeeps
    obtain ⟨hn, hkeeps⟩ := Bool.and_eq_true_iff.mp hkeeps
    have hall : 0 + fields.length = vs.length := by rw [Nat.zero_add, eq_of_beq hn, hlen]
    rw [apply_identity, applyFields_keeps hkeeps hall]
    rfl
  · rw [apply]

/-- The conversion of a sum applies that of the alternative, also when it is left out. -/
theorem apply_sum {alts : List (UInt32 × Conversion)} {i : UInt32} (hi : i.toNat < alts.length)
    (n : Nat) (payload : Value) :
    (if alts.length == n && keepsAlts 0 alts then identity else sum alts).apply (.alt i payload) =
      applyAlternative alts i.toNat payload := by
  split
  · rename_i hkeeps
    obtain ⟨-, hkeeps⟩ := Bool.and_eq_true_iff.mp hkeeps
    rw [apply_identity, applyAlternative_keeps hkeeps (Nat.zero_add _).symm hi payload]
  · rw [apply]

/-! ## Soundness -/

/-- A conversion that could be prepared applies to every value of the source type. -/
theorem between_applies (target : Ty) : AppliesAt target := by
  induction target using Ty.inductOn with
  | byte | nat | bool | string =>
      intro source c h v hv
      obtain ⟨rfl, rfl⟩ | ⟨_, _, _, h, _⟩ | ⟨_, _, _, _, h, _⟩ | ⟨_, _, _, _, h, _⟩ |
        ⟨_, _, _, _, h, _⟩ := between_ok h
      · exact ⟨v, apply_identity v, fun _ => hv⟩
      all_goals cases h
  | predicate q =>
      intro source c h v hv
      obtain ⟨rfl, rfl⟩ | ⟨p, _, rfl, _, -, rfl⟩ | ⟨_, _, _, _, h, _⟩ | ⟨_, _, _, _, h, _⟩ |
        ⟨_, _, _, _, h, _⟩ := between_ok h
      · exact ⟨v, apply_identity v, fun _ => hv⟩
      · obtain ⟨id, rfl⟩ := Ty.conforms_predicate_iff.mp hv
        exact ⟨_, apply_identity _, fun _ => rfl⟩
      all_goals cases h
  | array elem ih =>
      intro source c h v hv
      obtain ⟨rfl, rfl⟩ | ⟨_, _, _, h, _⟩ | ⟨a, _, c', rfl, heq, hc', rfl⟩ | ⟨_, _, _, _, h, _⟩ |
        ⟨_, _, _, _, h, _⟩ := between_ok h
      · exact ⟨v, apply_identity v, fun _ => hv⟩
      · cases h
      · cases heq
        obtain ⟨vs, rfl, hvs⟩ := Ty.conforms_array_iff.mp hv
        obtain ⟨ws, hws, hall⟩ := items_apply ih hc' hvs
        refine ⟨.array ws, ?_, fun htarget =>
          Ty.conforms_array_iff.mpr ⟨ws, rfl, hall htarget.2⟩⟩
        rw [apply_array, hws]
        rfl
      all_goals cases h
  | record targets ih =>
      intro source c h v hv
      obtain ⟨rfl, rfl⟩ | ⟨_, _, _, h, _⟩ | ⟨_, _, _, _, h, _⟩ | ⟨sources, _, fields, rfl, heq, hfields, rfl⟩ |
        ⟨_, _, _, _, h, _⟩ := between_ok h
      · exact ⟨v, apply_identity v, fun _ => hv⟩
      · cases h
      · cases h
      · cases heq
        obtain ⟨vs, rfl, hvs⟩ := Ty.conforms_record_iff.mp hv
        obtain ⟨ws, hws, hall⟩ := betweenFields_applies ih hfields hvs
        refine ⟨.record ws, ?_, fun htarget => ?_⟩
        · rw [apply_record hvs.length_eq.symm, hws]
          rfl
        · have htypes := Ty.everyField_iff.mp htarget.2
          refine Ty.conforms_record_iff.mpr ⟨ws, rfl, hall htypes fun f hf v hv => ?_⟩
          exact Ty.default?_conforms (htarget.1.defaults f hf)
            ((htypes f hf).mono fun _ h => h.defaults) hv
      · cases h
  | sum targets ih =>
      intro source c h v hv
      obtain ⟨rfl, rfl⟩ | ⟨_, _, _, h, _⟩ | ⟨_, _, _, _, h, _⟩ | ⟨_, _, _, _, h, _⟩ |
        ⟨sources, _, alts, rfl, heq, halts, rfl⟩ := between_ok h
      · exact ⟨v, apply_identity v, fun _ => hv⟩
      · cases h
      · cases h
      · cases h
      · cases heq
        obtain ⟨i, payload, w, rfl, hi, hw, hfit⟩ := alternatives_apply ih halts hv
        exact ⟨w, by rw [apply_sum hi, hw], hfit⟩

/-- A conversion that could be prepared turns every value of the source type into a value
of the target type. -/
theorem between_sound {target : Ty} (htarget : target.Every Ty.Convertible) (source : Ty)
    (c : Conversion) (h : between source target = .ok c) (v : Value) (hv : source.Conforms v) :
    ∃ w, c.apply v = .ok w ∧ target.Conforms w := by
  obtain ⟨w, hw, hfit⟩ := between_applies target source c h v hv
  exact ⟨w, hw, hfit htarget⟩

end Conversion

end Factbase
