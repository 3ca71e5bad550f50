import Factbase.Proofs.Schema.Conversions

/-!
# What a conversion makes of a value

Positions in a record, and the numbers of alternatives, mean nothing
across two versions of a type; names do. `Image` says, without mentioning
conversions, which value of the target corresponds to a value of the
source: parts go to the parts of the same name, whatever is new has its
default, and leaves are the same.

There is one image (`Image.unique`), and it is the value that a conversion
gives (`Conversion.image`). The induction for that is on the target, as in
`between_applies`. Where a conversion was left out as the identity the source
and the target may still differ; what decides is what it would have done to
the parts, not the value that is handed back.
-/

namespace Factbase

/-- `w` corresponds to `v`: `v` is read as a value of the first type, `w` as a value of the
second one, and names say which parts of them go together. -/
inductive Image : Ty → Ty → Value → Value → Prop
  | byte (n : UInt8) : Image .byte .byte (.byte n) (.byte n)
  | nat (n : UInt64) : Image .nat .nat (.nat n) (.nat n)
  | bool (b : Bool) : Image .bool .bool (.bool b) (.bool b)
  | string (s : String) : Image .string .string (.string s) (.string s)
  /-- A reference stays; only the version of what it refers to may be another. -/
  | fact {p q : Predicate} (id : FactId) :
      p.name = q.name → Image (.predicate p) (.predicate q) (.fact id) (.fact id)
  | array {a b : Ty} {vs ws : List Value} :
      vs.length = ws.length →
      (∀ (i : Nat) (v w : Value), vs[i]? = some v → ws[i]? = some w → Image a b v w) →
      Image (.array a) (.array b) (.array vs) (.array ws)
  /-- Fields of one name correspond, and a field that has no namesake holds its default. -/
  | record {sources targets : List Field} {vs ws : List Value} :
      vs.length = sources.length → ws.length = targets.length →
      (∀ (i j : Nat) (g f : Field) (v w : Value), sources[i]? = some g → targets[j]? = some f →
        g.name = f.name → vs[i]? = some v → ws[j]? = some w → Image g.ty f.ty v w) →
      (∀ (j : Nat) (f : Field) (w : Value), targets[j]? = some f → ws[j]? = some w →
        (∀ g ∈ sources, g.name ≠ f.name) → f.default? = some w) →
      Image (.record sources) (.record targets) (.record vs) (.record ws)
  /-- The alternative of the same name is kept. -/
  | alt {sources targets : List Field} {i j : UInt32} {g f : Field} {v w : Value} :
      sources[i.toNat]? = some g → targets[j.toNat]? = some f → g.name = f.name →
      Image g.ty f.ty v w → Image (.sum sources) (.sum targets) (.alt i v) (.alt j w)

/-! ## Fields by name -/

/-- Fields with names of their own are at one position when they have one name. -/
theorem eq_of_names_nodup {fields : List Field} (h : (fields.map (·.name)).Nodup) {i j : Nat}
    {f g : Field} (hf : fields[i]? = some f) (hg : fields[j]? = some g) (hname : f.name = g.name) :
    i = j := by
  have hi : (fields.map (·.name))[i]? = some f.name := by rw [List.getElem?_map, hf]; rfl
  have hj : (fields.map (·.name))[j]? = some f.name := by rw [List.getElem?_map, hg, hname]; rfl
  have hlt := (List.getElem?_eq_some_iff.mp hi).1
  exact (List.getElem?_inj hlt h).mp (hi.trans hj.symm)

theorem Field.name_of_locate? {name : String} {fields : List Field} {i : Nat} {f : Field}
    (h : Field.locate? name fields = some (i, f)) : f.name = name := by
  induction fields generalizing i with
  | nil => cases h
  | cons f' fields ih =>
      rw [Field.locate?] at h
      split at h
      · cases h
        assumption
      · obtain ⟨⟨j, f''⟩, hloc, heq⟩ := Option.map_eq_some_iff.mp h
        cases heq
        exact ih hloc

theorem Field.locate?_eq_none {name : String} {fields : List Field}
    (h : Field.locate? name fields = none) : ∀ f ∈ fields, f.name ≠ name := by
  induction fields with
  | nil => simp
  | cons f fields ih =>
      rw [Field.locate?] at h
      split at h
      · cases h
      · rename_i hname
        exact List.forall_mem_cons.mpr ⟨hname, ih (Option.map_eq_none_iff.mp h)⟩

/-- A value is its own image when the fields of its type have names of their own. -/
theorem Image.refl {ty : Ty} (hnames : ty.Every Ty.DistinctNames) {v : Value}
    (hv : ty.Conforms v) : Image ty ty v v := by
  induction ty using Ty.inductOn generalizing v with
  | byte =>
      obtain ⟨n, rfl⟩ := Ty.conforms_byte_iff.mp hv
      exact .byte n
  | nat =>
      obtain ⟨n, rfl⟩ := Ty.conforms_nat_iff.mp hv
      exact .nat n
  | bool =>
      obtain ⟨b, rfl⟩ := Ty.conforms_bool_iff.mp hv
      exact .bool b
  | string =>
      obtain ⟨s, rfl⟩ := Ty.conforms_string_iff.mp hv
      exact .string s
  | predicate p =>
      obtain ⟨id, rfl⟩ := Ty.conforms_predicate_iff.mp hv
      exact .fact id rfl
  | array elem ih =>
      obtain ⟨vs, rfl, hvs⟩ := Ty.conforms_array_iff.mp hv
      refine .array rfl fun i v w hi hi' => ?_
      obtain rfl := Option.some.inj (hi.symm.trans hi')
      exact ih hnames.2 (hvs v (List.mem_of_getElem? hi))
  | record fields ih =>
      obtain ⟨vs, rfl, hvs⟩ := Ty.conforms_record_iff.mp hv
      have hfields := Ty.everyField_iff.mp hnames.2
      refine .record hvs.length_eq.symm hvs.length_eq.symm ?_ fun j f w hf _ hnew => ?_
      · intro i j g f v w hg hf hname hi hj
        obtain rfl := eq_of_names_nodup hnames.1 hg hf hname
        obtain rfl := Option.some.inj (hg.symm.trans hf)
        obtain rfl := Option.some.inj (hi.symm.trans hj)
        obtain ⟨u, hu, hfit⟩ := forall₂_getElem? hvs hg
        obtain rfl := Option.some.inj (hi.symm.trans hu)
        have hmem := List.mem_of_getElem? hg
        exact ih g hmem (hfields g hmem) hfit
      · exact absurd rfl (hnew f (List.mem_of_getElem? hf))
  | sum alts ih =>
      obtain ⟨i, w, rfl, alt, halt, hfit⟩ := Ty.conforms_sum_iff.mp hv
      have hmem := List.mem_of_getElem? halt
      exact .alt halt halt rfl (ih alt hmem (Ty.everyField_iff.mp hnames.2 alt hmem) hfit)

/-- There is one image when the fields of the target have names of their own. -/
theorem Image.unique {source target : Ty} {v w w' : Value} (hnames : target.Every Ty.DistinctNames)
    (h : Image source target v w) (h' : Image source target v w') : w = w' := by
  induction h generalizing w' with
  | byte | nat | bool | string | fact =>
      cases h'
      rfl
  | @array a b vs ws hlen _ ih =>
      cases h' with
      | @array _ _ _ ws' hlen' hitems' =>
          refine congrArg Value.array (List.ext_getElem (hlen.symm.trans hlen') fun i hi hi' => ?_)
          have hv := List.getElem?_eq_getElem (show i < vs.length by omega)
          exact ih i _ _ hv (List.getElem?_eq_getElem hi) hnames.2
            (hitems' i _ _ hv (List.getElem?_eq_getElem hi'))
  | @record sources targets vs ws hvs hws _ hadded ih =>
      cases h' with
      | @record _ _ _ ws' _ hws' hkept' hadded' =>
          refine congrArg Value.record (List.ext_getElem (hws.trans hws'.symm) fun j hj hj' => ?_)
          have hf := List.getElem?_eq_getElem (show j < targets.length by omega)
          have hw := List.getElem?_eq_getElem hj
          have hw' := List.getElem?_eq_getElem hj'
          by_cases hnew : ∀ g ∈ sources, g.name ≠ targets[j].name
          · have hdefault := hadded j _ _ hf hw hnew
            exact Option.some.inj (hdefault.symm.trans (hadded' j _ _ hf hw' hnew))
          · simp only [not_forall, not_not] at hnew
            obtain ⟨g, hmem, hname⟩ := hnew
            obtain ⟨i, hi, rfl⟩ := List.mem_iff_getElem.mp hmem
            have hg := List.getElem?_eq_getElem hi
            have hv := List.getElem?_eq_getElem (show i < vs.length by omega)
            have hty := Ty.everyField_iff.mp hnames.2 _ (List.mem_of_getElem? hf)
            exact ih i j _ _ _ _ hg hf hname hv hw hty (hkept' i j _ _ _ _ hg hf hname hv hw')
  | @alt sources targets i j g f v w hg hf hname _ ih =>
      cases h' with
      | @alt _ _ _ j' g' f' _ w' hg' hf' hname' himage' =>
          obtain rfl := Option.some.inj (hg.symm.trans hg')
          obtain rfl : j = j' :=
            UInt32.toNat_inj.mp (eq_of_names_nodup hnames.1 hf hf' (hname.symm.trans hname'))
          obtain rfl := Option.some.inj (hf.symm.trans hf')
          rw [ih (Ty.everyField_iff.mp hnames.2 f (List.mem_of_getElem? hf)) himage']

/-! ## Conversions part by part -/

/-- What a field of the target gets from the values of a source record. -/
def FieldConversion.Gives (vs : List Value) : FieldConversion → Value → Prop
  | .kept i c, w => ∃ v, vs[i]? = some v ∧ c.apply v = .ok w
  | .added u, w => w = u

/-- Where a field of the target comes from. -/
def FieldConversion.Serves (sources : List Field) (f : Field) : FieldConversion → Prop
  | .kept i c => ∃ g, Field.locate? f.name sources = some (i, g) ∧
      Conversion.between g.ty f.ty = .ok c
  | .added u => Field.locate? f.name sources = none ∧ f.default? = some u

namespace Conversion

theorem betweenFields_serves {sources targets : List Field} {fields : List FieldConversion}
    (h : betweenFields sources targets = .ok fields) :
    List.Forall₂ (FieldConversion.Serves sources) targets fields := by
  induction targets generalizing fields with
  | nil =>
      cases h
      exact .nil
  | cons target targets ih =>
      obtain ⟨field, rest, rfl, hrest, hfield⟩ := betweenFields_cons h
      refine .cons ?_ (ih hrest)
      obtain ⟨i, f, c, hloc, hc, rfl⟩ | ⟨v, hloc, hv, rfl⟩ := hfield
      · exact ⟨f, hloc, hc⟩
      · exact ⟨hloc, hv⟩

theorem applyFields_gives {fields : List FieldConversion} {vs ws : List Value}
    (h : applyFields fields vs = .ok ws) : List.Forall₂ (FieldConversion.Gives vs) fields ws := by
  induction fields generalizing ws with
  | nil =>
      rw [applyFields] at h
      cases h
      exact .nil
  | cons field fields ih =>
      cases field with
      | added u =>
          rw [applyFields] at h
          obtain ⟨ws', hws', rfl⟩ := Outcome.map_ok_iff.mp h
          exact .cons rfl (ih hws')
      | kept i c =>
          rw [applyFields] at h
          cases hv : vs[i]? with
          | none =>
              rw [hv] at h
              cases h
          | some v =>
              rw [hv] at h
              obtain ⟨w, hw, h⟩ := Outcome.bind_ok_iff.mp h
              obtain ⟨ws', hws', hout⟩ := Outcome.bind_ok_iff.mp h
              cases hout
              exact .cons ⟨v, hv, hw⟩ (ih hws')

/-- What is shown of a target type: the conversions to it give images. -/
def ImageAt (target : Ty) : Prop :=
  ∀ source c, source.Every Ty.DistinctNames → between source target = .ok c →
    ∀ v w, source.Conforms v → c.apply v = .ok w → Image source target v w

/-- The fields that a record conversion gives are those of the image. -/
theorem image_record {sources targets : List Field} {fields : List FieldConversion}
    (himage : ∀ f ∈ targets, ImageAt f.ty) (hnames : (Ty.record sources).Every Ty.DistinctNames)
    (h : betweenFields sources targets = .ok fields) {vs ws : List Value}
    (hvs : Ty.ConformAll sources vs) (hws : applyFields fields vs = .ok ws) :
    Image (.record sources) (.record targets) (.record vs) (.record ws) := by
  have hserves := betweenFields_serves h
  have hgives := applyFields_gives hws
  refine .record hvs.length_eq.symm (hgives.length_eq.symm.trans hserves.length_eq.symm) ?_ ?_
  · intro i j g f v w hg hf hname hv hw
    obtain ⟨field, hfield, hserve⟩ := forall₂_getElem? hserves hf
    obtain ⟨w', hw', hgive⟩ := forall₂_getElem? hgives hfield
    obtain rfl := Option.some.inj (hw.symm.trans hw')
    cases field with
    | added u => exact absurd hname (Field.locate?_eq_none hserve.1 g (List.mem_of_getElem? hg))
    | kept k c =>
        obtain ⟨g', hloc, hc⟩ := hserve
        obtain ⟨v', hv', happly⟩ := hgive
        -- the field that was located is the one of that name
        have hg' := Field.locate?_some hloc
        have hname' : g'.name = g.name := (Field.name_of_locate? hloc).trans hname.symm
        obtain rfl : k = i := eq_of_names_nodup hnames.1 hg' hg hname'
        obtain rfl := Option.some.inj (hg'.symm.trans hg)
        obtain rfl := Option.some.inj (hv'.symm.trans hv)
        obtain ⟨u, hu, hfit⟩ := forall₂_getElem? hvs hg
        obtain rfl := Option.some.inj (hu.symm.trans hv)
        exact himage f (List.mem_of_getElem? hf) g'.ty c
          (Ty.everyField_iff.mp hnames.2 g' (List.mem_of_getElem? hg)) hc u w hfit happly
  · intro j f w hf hw hnew
    obtain ⟨field, hfield, hserve⟩ := forall₂_getElem? hserves hf
    obtain ⟨w', hw', hgive⟩ := forall₂_getElem? hgives hfield
    obtain rfl := Option.some.inj (hw.symm.trans hw')
    cases field with
    | added u =>
        obtain rfl : w = u := hgive
        exact hserve.2
    | kept k c =>
        obtain ⟨g, hloc, -⟩ := hserve
        exact absurd (Field.name_of_locate? hloc)
          (hnew g (List.mem_of_getElem? (Field.locate?_some hloc)))

/-- A converted array is the image. -/
theorem image_array {a b : Ty} {c : Conversion} (himage : ImageAt b)
    (hnames : a.Every Ty.DistinctNames) (h : between a b = .ok c) {vs ws : List Value}
    (hvs : ∀ v ∈ vs, a.Conforms v) (hws : vs.mapM c.apply = .ok ws) :
    Image (.array a) (.array b) (.array vs) (.array ws) := by
  have hitems := Outcome.mapM_ok_iff.mp hws
  refine .array hitems.length_eq fun i v w hv hw => ?_
  obtain ⟨w', hw', happly⟩ := forall₂_getElem? hitems hv
  obtain rfl := Option.some.inj (hw.symm.trans hw')
  exact himage a c hnames h v w (hvs v (List.mem_of_getElem? hv)) happly

/-- A converted alternative is the image. -/
theorem image_sum {sources targets : List Field} {alts : List (UInt32 × Conversion)}
    (himage : ∀ f ∈ targets, ImageAt f.ty) (hnarrow : targets.length ≤ 2 ^ 32)
    (hnames : (Ty.sum sources).Every Ty.DistinctNames)
    (h : sources.mapM (fun alt => toAlternative alt.name alt.ty 0 targets) = .ok alts) {i : UInt32}
    {g : Field} {payload w : Value} (hg : sources[i.toNat]? = some g) (hfit : g.ty.Conforms payload)
    (hw : applyAlternative alts i.toNat payload = .ok w) :
    Image (.sum sources) (.sum targets) (.alt i payload) w := by
  obtain ⟨⟨j, c⟩, hc, hto⟩ := forall₂_getElem? (Outcome.mapM_ok_iff.mp h) hg
  obtain ⟨k, f, hf, hname, rfl, hbetween⟩ := toAlternative_ok hto
  rw [Nat.zero_add] at hc
  rw [applyAlternative_getElem? hc] at hw
  obtain ⟨u, hu, rfl⟩ := Outcome.map_ok_iff.mp hw
  refine .alt hg (Ty.alternative_index hnarrow hf) hname.symm ?_
  exact himage f (List.mem_of_getElem? hf) g.ty c
    (Ty.everyField_iff.mp hnames.2 g (List.mem_of_getElem? hg)) hbetween payload u hfit hu

/-- What a conversion gives is the image. -/
theorem image {target : Ty} (hnarrow : target.Every Ty.Narrow) : ImageAt target := by
  induction target using Ty.inductOn with
  | byte | nat | bool | string =>
      intro source c hnames h v w hv hw
      obtain ⟨rfl, rfl⟩ | ⟨_, _, _, h, _⟩ | ⟨_, _, _, _, h, _⟩ | ⟨_, _, _, _, h, _⟩ |
        ⟨_, _, _, _, h, _⟩ := between_ok h
      · cases (apply_identity v).symm.trans hw
        exact .refl hnames hv
      all_goals cases h
  | predicate q =>
      intro source c hnames h v w hv hw
      obtain ⟨rfl, rfl⟩ | ⟨p, _, rfl, heq, hname, rfl⟩ | ⟨_, _, _, _, h, _⟩ | ⟨_, _, _, _, h, _⟩ |
        ⟨_, _, _, _, h, _⟩ := between_ok h
      · cases (apply_identity v).symm.trans hw
        exact .refl hnames hv
      · cases heq
        cases (apply_identity v).symm.trans hw
        obtain ⟨id, rfl⟩ := Ty.conforms_predicate_iff.mp hv
        exact .fact id hname
      all_goals cases h
  | array elem ih =>
      intro source c hnames h v w hv hw
      obtain ⟨rfl, rfl⟩ | ⟨_, _, _, h, _⟩ | ⟨a, _, c', rfl, heq, hc', rfl⟩ | ⟨_, _, _, _, h, _⟩ |
        ⟨_, _, _, _, h, _⟩ := between_ok h
      · cases (apply_identity v).symm.trans hw
        exact .refl hnames hv
      · cases h
      · cases heq
        obtain ⟨vs, rfl, hvs⟩ := Ty.conforms_array_iff.mp hv
        rw [apply_array] at hw
        obtain ⟨ws, hws, rfl⟩ := Outcome.map_ok_iff.mp hw
        exact image_array (ih hnarrow.2) hnames.2 hc' hvs hws
      all_goals cases h
  | record targets ih =>
      intro source c hnames h v w hv hw
      obtain ⟨rfl, rfl⟩ | ⟨_, _, _, h, _⟩ | ⟨_, _, _, _, h, _⟩ |
        ⟨sources, _, fields, rfl, heq, hfields, rfl⟩ | ⟨_, _, _, _, h, _⟩ := between_ok h
      · cases (apply_identity v).symm.trans hw
        exact .refl hnames hv
      · cases h
      · cases h
      · cases heq
        obtain ⟨vs, rfl, hvs⟩ := Ty.conforms_record_iff.mp hv
        rw [apply_record hvs.length_eq.symm] at hw
        obtain ⟨ws, hws, rfl⟩ := Outcome.map_ok_iff.mp hw
        exact image_record (fun f hf => ih f hf (Ty.everyField_iff.mp hnarrow.2 f hf)) hnames
          hfields hvs hws
      · cases h
  | sum targets ih =>
      intro source c hnames h v w hv hw
      obtain ⟨rfl, rfl⟩ | ⟨_, _, _, h, _⟩ | ⟨_, _, _, _, h, _⟩ | ⟨_, _, _, _, h, _⟩ |
        ⟨sources, _, alts, rfl, heq, halts, rfl⟩ := between_ok h
      · cases (apply_identity v).symm.trans hw
        exact .refl hnames hv
      · cases h
      · cases h
      · cases h
      · cases heq
        obtain ⟨i, payload, rfl, g, hg, hfit⟩ := Ty.conforms_sum_iff.mp hv
        have hi : i.toNat < alts.length := by
          obtain ⟨e, he, -⟩ := forall₂_getElem? (Outcome.mapM_ok_iff.mp halts) hg
          exact (List.getElem?_eq_some_iff.mp he).1
        rw [apply_sum hi] at hw
        exact image_sum (fun f hf => ih f hf (Ty.everyField_iff.mp hnarrow.2 f hf)) hnarrow.1 hnames
          halts hg hfit hw

/-- A conversion that could be prepared turns every value of the source into a value of the
target, its one image there; a conversion that is the identity leaves the value as it is. -/
theorem between_gives_image {source target : Ty} {c : Conversion}
    (hsource : source.Every Ty.DistinctNames) (htarget : target.Every Ty.DistinctNames)
    (hdefaults : target.Every Ty.DefaultsConform) (hnarrow : target.Every Ty.Narrow)
    (h : between source target = .ok c) {v : Value} (hv : source.Conforms v) :
    ∃ w, c.apply v = .ok w ∧ target.Conforms w ∧ Image source target v w ∧
      (∀ w', Image source target v w' → w' = w) ∧ (c.isIdentity = true → w = v) := by
  have hconvertible : target.Every Ty.Convertible :=
    (hdefaults.and hnarrow).mono fun _ h => ⟨h.1, h.2⟩
  obtain ⟨w, hw, hfit⟩ := between_sound hconvertible source c h v hv
  have himage := image hnarrow source c hsource h v w hv hw
  refine ⟨w, hw, hfit, himage, fun w' h' => Image.unique htarget h' himage, fun hidentity => ?_⟩
  rw [isIdentity_iff.mp hidentity, apply_identity] at hw
  exact (Except.ok.inj hw).symm

/-- A lamp before and after its type was changed: a field moved, one went and one came, and
the states got other numbers, one of them another field. -/
def oldLamp : Ty := .record
  [.plain "name" .string, .plain "watts" .nat, .plain "rooms" (.array (.predicate ⟨"home.Room", 1⟩)),
    .plain "state" (.sum [.plain "off" .unit, .plain "on" (.record [.plain "level" .nat])])]

@[inherit_doc oldLamp]
def newLamp : Ty := .record
  [.plain "rooms" (.array (.predicate ⟨"home.Room", 2⟩)),
    .plain "state" (.sum
      [.plain "on" (.record [⟨"warm", .bool, some (.bool true)⟩, .plain "level" .nat]),
        .plain "dimmed" .unit, .plain "off" .unit]),
    .plain "name" .string, ⟨"maker", .string, some (.string "?")⟩]

def lampConversion : Conversion := (between oldLamp newLamp).toOption.getD .identity

theorem between_gives_image_lamp :
    Image oldLamp newLamp
      (.record [.string "desk", .nat 40, .array [.fact ⟨1024⟩], .alt 1 (.record [.nat 3])])
      (.record [.array [.fact ⟨1024⟩], .alt 0 (.record [.bool true, .nat 3]), .string "desk",
        .string "?"]) := by
  have hbetween : between oldLamp newLamp = .ok lampConversion := rfl
  have hlamp : oldLamp.Conforms
      (.record [.string "desk", .nat 40, .array [.fact ⟨1024⟩], .alt 1 (.record [.nat 3])]) := by
    decide +kernel
  obtain ⟨w, hw, -, himage, -⟩ := between_gives_image (by decide +kernel) (by decide +kernel)
    (by decide +kernel) (by decide +kernel) hbetween hlamp
  have hgives : lampConversion.apply
      (.record [.string "desk", .nat 40, .array [.fact ⟨1024⟩], .alt 1 (.record [.nat 3])]) =
      .ok (.record [.array [.fact ⟨1024⟩], .alt 0 (.record [.bool true, .nat 3]), .string "desk",
        .string "?"]) := rfl
  cases hgives.symm.trans hw
  exact himage

end Conversion

end Factbase
