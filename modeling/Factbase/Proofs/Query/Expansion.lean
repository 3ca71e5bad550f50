import Factbase.Proofs.Outcome
import Factbase.Proofs.SortedMap
import Factbase.Query.Results
import Factbase.Schema.Registration
import Factbase.Store.Memory
import Mathlib.Data.List.Dedup
import Mathlib.Data.List.Perm.Subperm

/-!
# Which references are expanded

What is written for a result, with the references that were met on the way
in the order in which they were met (`Writes`). The relation leaves open
which of them are written in place and which stay as they are; what it
fixes is everything else, and for each reference where it stands.

Rendering makes the choice with a state, the pairs that it has followed.
`Judged` says what it decided about each reference, given the pairs before
it, and `follow` which pair it then adds. Every part of the rendering gives
visits that are judged from the state it starts with, and leaves the state
that they lead to (`Traces`). From that the bounds follow without any more
recursion (`Sparing`).
-/

namespace Factbase

/-! ## Places and visits -/

/-- One step on the way from a fact to something in it. -/
inductive Turn where
  | key
  | value
  | item (index : Nat)
  | field (index : Nat)
  | alternative (index : Nat)
deriving DecidableEq

/-- Where something is written. -/
structure Spot where
  /-- The facts it is written inside of, the innermost first. -/
  around : List FactId
  route : List Turn
  /-- The names on the way. -/
  path : List String
deriving DecidableEq

namespace Spot

/-- Where a result is written. -/
def root : Spot := ⟨[], [], []⟩

/-- Inside a fact. -/
def inside (a : Spot) (id : FactId) : Spot := { a with around := id :: a.around }

/-- One step further. -/
def turn (a : Spot) (t : Turn) (names : List String) : Spot :=
  { a with route := a.route ++ [t], path := a.path ++ names }

@[simp] theorem route_turn (a : Spot) (t : Turn) (names : List String) :
    (a.turn t names).route = a.route ++ [t] := rfl

@[simp] theorem path_turn (a : Spot) (t : Turn) (names : List String) :
    (a.turn t names).path = a.path ++ names := rfl

end Spot

/-- A reference and what was written for it. -/
structure Visit where
  place : Spot
  id : FactId
  predicate : Predicate
  json : Json

namespace Visit

/-- The reference stays as it is. -/
def IsLeft (v : Visit) : Prop := v.json = v.id.toJson

/-- The referring fact and the one referred to. Directly inside a plain value there is no
referring fact, and the one referred to stands for it. -/
def pair (v : Visit) : FactId × FactId := (v.place.around.head?.getD v.id, v.id)

end Visit

/-! ## What may be written -/

namespace Rendering

mutual
/-- What may be written for a value of a type, and the references met. -/
inductive Writes (r : Rendering) : Spot → Ty → Value → Json → List Visit → Prop
  | byte (a : Spot) (n : UInt8) : Writes r a .byte (.byte n) (.nat n.toUInt64) []
  | nat (a : Spot) (n : UInt64) : Writes r a .nat (.nat n) (.nat n) []
  | bool (a : Spot) (b : Bool) : Writes r a .bool (.bool b) (.bool b) []
  | string (a : Spot) (s : String) : Writes r a .string (.string s) (.string s) []
  | left (a : Spot) (p : Predicate) (id : FactId) :
      Writes r a (.predicate p) (.fact id) id.toJson [⟨a, id, p, id.toJson⟩]
  | placed {a : Spot} {p : Predicate} {f : Fact} {j : Json} {vs : List Visit} (id : FactId)
      (hread : r.read id p = .ok (some f)) (h : WritesFact r (a.inside id) f j vs) :
      Writes r a (.predicate p) (.fact id) j (⟨a, id, p, j⟩ :: vs)
  | array {a : Spot} {elem : Ty} {items : List Value} {js : List Json} {vs : List Visit}
      (h : WritesItems r a 0 elem items js vs) : Writes r a (.array elem) (.array items) (.array js) vs
  | record {a : Spot} {fields : List Field} {values : List Value} {ms : List (String × Json)}
      {vs : List Visit} (hlen : fields.length = values.length)
      (h : WritesFields r a 0 fields values ms vs) :
      Writes r a (.record fields) (.record values) (.object ms) vs
  | alt {a : Spot} {alts : List Field} {index : UInt32} {alt : Field} {payload : Value} {j : Json}
      {vs : List Visit} (halt : alts[index.toNat]? = some alt)
      (h : Writes r (a.turn (.alternative index.toNat) [alt.name]) alt.ty payload j vs) :
      Writes r a (.sum alts) (.alt index payload) (.object [(alt.name, j)]) vs

/-- The items of an array, the first of them at index `i`. -/
inductive WritesItems (r : Rendering) :
    Spot → Nat → Ty → List Value → List Json → List Visit → Prop
  | nil (a : Spot) (i : Nat) (elem : Ty) : WritesItems r a i elem [] [] []
  | cons {a : Spot} {i : Nat} {elem : Ty} {v : Value} {items : List Value} {j : Json}
      {js : List Json} {vs ws : List Visit} (h : Writes r (a.turn (.item i) []) elem v j vs)
      (hs : WritesItems r a (i + 1) elem items js ws) :
      WritesItems r a i elem (v :: items) (j :: js) (vs ++ ws)

/-- The fields of a record, the first of them at index `i`. -/
inductive WritesFields (r : Rendering) :
    Spot → Nat → List Field → List Value → List (String × Json) → List Visit → Prop
  | nil (a : Spot) (i : Nat) : WritesFields r a i [] [] [] []
  | cons {a : Spot} {i : Nat} {f : Field} {fields : List Field} {v : Value} {values : List Value}
      {j : Json} {ms : List (String × Json)} {vs ws : List Visit}
      (h : Writes r (a.turn (.field i) [f.name]) f.ty v j vs)
      (hs : WritesFields r a (i + 1) fields values ms ws) :
      WritesFields r a i (f :: fields) (v :: values) ((f.name, j) :: ms) (vs ++ ws)

/-- What may be written for a fact in place of a reference to it. The fact is the innermost
of those that the place is inside of. -/
inductive WritesFact (r : Rendering) : Spot → Fact → Json → List Visit → Prop
  | key {a : Spot} {f : Fact} {d : Definition} {j : Json} {vs : List Visit}
      (hd : r.schema.get? f.predicate = some d) (hvalue : f.value? = none)
      (h : Writes r (a.turn .key []) d.key f.key j vs) :
      WritesFact r a f (.object [("id", .nat f.id.number), ("key", j)]) vs
  | keyValue {a : Spot} {f : Fact} {d : Definition} {v : Value} {j k : Json} {vs ws : List Visit}
      (hd : r.schema.get? f.predicate = some d) (hvalue : f.value? = some v)
      (h : Writes r (a.turn .key []) d.key f.key j vs)
      (hv : Writes r (a.turn .value [valueRoot]) d.value v k ws) :
      WritesFact r a f (.object [("id", .nat f.id.number), ("key", j), ("value", k)]) (vs ++ ws)
end

variable {r : Rendering}

/-- A fact is written with its id and more, and so not like a reference. -/
theorem WritesFact.object {a : Spot} {f : Fact} {j : Json} {vs : List Visit}
    (h : r.WritesFact a f j vs) :
    ∃ m ms, j = .object (("id", .nat f.id.number) :: m :: ms) := by
  cases h with
  | key => exact ⟨_, _, rfl⟩
  | keyValue => exact ⟨_, _, rfl⟩

theorem WritesFact.ne_toJson {a : Spot} {f : Fact} {j : Json} {vs : List Visit}
    (h : r.WritesFact a f j vs) (id : FactId) : j ≠ id.toJson := by
  obtain ⟨m, ms, rfl⟩ := h.object
  simp [FactId.toJson]

/-! ## Judgements -/

/-- The tests that do not depend on what was written before. -/
def Passes (r : Rendering) (v : Visit) : Prop :=
  r.noExpand.contains v.place.path = false ∧ r.policy.expands v.predicate = true ∧
    v.id ∉ v.place.around ∧ v.place.around.length < maxExpansion

instance (v : Visit) : Decidable (r.Passes v) := inferInstanceAs (Decidable (_ ∧ _ ∧ _ ∧ _))

/-- The pairs that have been followed after a visit. -/
def follow (r : Rendering) (s : Followed) (v : Visit) : Followed :=
  if r.Passes v ∧ v.pair ∉ s then v.pair :: s else s

/-- A reference stays as it is for one of these reasons, where `s` has been followed. Else
there is an object in its place, for the fact that is read. -/
structure Decided (r : Rendering) (s : Followed) (v : Visit) : Prop where
  left_iff : v.IsLeft ↔ ¬ r.Passes v ∨ v.pair ∈ s ∨ r.read v.id v.predicate = .ok none
  object : ¬ v.IsLeft → ∃ f ms, r.read v.id v.predicate = .ok (some f) ∧
    v.json = .object (("id", .nat f.id.number) :: ms)

/-- Each of the visits is decided by what has been followed before it. -/
def Judged (r : Rendering) : Followed → List Visit → Prop
  | _, [] => True
  | s, v :: vs => r.Decided s v ∧ r.Judged (r.follow s v) vs

theorem Judged.append {s : Followed} {vs ws : List Visit} (h : r.Judged s vs)
    (h' : r.Judged (vs.foldl r.follow s) ws) : r.Judged s (vs ++ ws) := by
  induction vs generalizing s with
  | nil => exact h'
  | cons v vs ih => exact ⟨h.1, ih h.2 h'⟩

theorem Judged.decided {s : Followed} {before after : List Visit} {v : Visit}
    (h : r.Judged s (before ++ v :: after)) : r.Decided (before.foldl r.follow s) v := by
  induction before generalizing s with
  | nil => exact h.1
  | cons w before ih => exact ih h.2

theorem mem_follow_iff {s : Followed} {v : Visit} {e : FactId × FactId} :
    e ∈ r.follow s v ↔ e ∈ s ∨ (r.Passes v ∧ v.pair = e) := by
  unfold follow
  split
  · rename_i hnew
    rw [List.mem_cons]
    constructor
    · rintro (rfl | he)
      · exact .inr ⟨hnew.1, rfl⟩
      · exact .inl he
    · rintro (he | ⟨-, rfl⟩)
      · exact .inr he
      · exact .inl rfl
  · rename_i hold
    constructor
    · exact .inl
    · rintro (he | ⟨hpass, rfl⟩)
      · exact he
      · by_contra hnew
        exact hold ⟨hpass, hnew⟩

theorem follow_of_not_passes {s : Followed} {v : Visit} (h : ¬ r.Passes v) : r.follow s v = s :=
  if_neg fun hnew => h hnew.1

/-- What has been followed after some visits. -/
theorem mem_foldl_follow_iff {s : Followed} {vs : List Visit} {e : FactId × FactId} :
    e ∈ vs.foldl r.follow s ↔ e ∈ s ∨ ∃ v ∈ vs, r.Passes v ∧ v.pair = e := by
  induction vs generalizing s with
  | nil => simp
  | cons v vs ih =>
      rw [List.foldl_cons, ih, mem_follow_iff]
      simp [or_assoc]

/-- A reference that is written in place passes all tests, and its pair is new. -/
theorem Decided.passes {s : Followed} {v : Visit} (h : r.Decided s v) (hplaced : ¬ v.IsLeft) :
    r.Passes v ∧ v.pair ∉ s := by
  have hnone := mt h.left_iff.mpr hplaced
  rw [not_or, not_or, not_not] at hnone
  exact ⟨hnone.1, hnone.2.1⟩

open Classical in
/-- The references that are written in place. -/
noncomputable def placed (vs : List Visit) : List Visit := vs.filter fun v => ¬ v.IsLeft

theorem mem_placed {vs : List Visit} {v : Visit} : v ∈ placed vs ↔ v ∈ vs ∧ ¬ v.IsLeft := by
  simp [placed]

/-- No pair is written in place twice, and none that has been followed. -/
theorem Judged.nodup {s : Followed} {vs : List Visit} (h : r.Judged s vs) :
    ((placed vs).map Visit.pair).Nodup ∧ ∀ v ∈ placed vs, v.pair ∉ s := by
  induction vs generalizing s with
  | nil => exact ⟨List.nodup_nil, fun v hv => absurd hv List.not_mem_nil⟩
  | cons v vs ih =>
      obtain ⟨hnodup, hnew⟩ := ih h.2
      have hrest : ∀ w ∈ placed vs, w.pair ∉ s := fun w hw hin =>
        hnew w hw (mem_follow_iff.mpr (.inl hin))
      by_cases hleft : v.IsLeft
      · have hskip : placed (v :: vs) = placed vs := by simp [placed, hleft]
        rw [hskip]
        exact ⟨hnodup, hrest⟩
      · obtain ⟨hpass, hpair⟩ := h.1.passes hleft
        have htake : placed (v :: vs) = v :: placed vs := by simp [placed, hleft]
        rw [htake, List.map_cons]
        refine ⟨List.nodup_cons.mpr ⟨fun hin => ?_, hnodup⟩, List.forall_mem_cons.mpr ⟨hpair, hrest⟩⟩
        obtain ⟨w, hw, heq⟩ := List.mem_map.mp hin
        exact hnew w hw (mem_follow_iff.mpr (.inr ⟨hpass, heq.symm⟩))

/-! ## What rendering decides -/

/-- A part of the rendering that succeeds gives what may be written, with visits that are
decided by what has been followed before it; these are the ones it follows. -/
def Traces {α : Type} (r : Rendering) (x : StateT Followed (Except Error) α)
    (P : α → List Visit → Prop) : Prop :=
  ∀ s b s', x s = .ok (b, s') → ∃ vs, P b vs ∧ r.Judged s vs ∧ s' = vs.foldl r.follow s

namespace Traces

variable {α β : Type} {P : α → List Visit → Prop} {Q : β → List Visit → Prop}

theorem pure {a : α} (h : P a []) : r.Traces (pure a) P := by
  intro s b s' hrun
  obtain ⟨rfl, rfl⟩ := Outcome.stateT_pure_ok_iff.mp hrun
  exact ⟨[], h, trivial, rfl⟩

theorem throw {e : Error} : r.Traces (throw e) P := by
  intro s b s' hrun
  exact (Outcome.stateT_throw_ok_iff.mp hrun).elim

/-- The visits of two parts, one after the other. -/
theorem bind {x : StateT Followed (Except Error) α} {f : α → StateT Followed (Except Error) β}
    {R : α → β → List Visit → Prop} (hx : r.Traces x P) (hf : ∀ a, r.Traces (f a) (R a))
    (h : ∀ a b vs ws, P a vs → R a b ws → Q b (vs ++ ws)) : r.Traces (x >>= f) Q := by
  intro s b s' hrun
  obtain ⟨a, t, ha, hb⟩ := Outcome.stateT_bind_ok_iff.mp hrun
  obtain ⟨vs, hvs, hjudged, rfl⟩ := hx s a t ha
  obtain ⟨ws, hws, hjudged', rfl⟩ := hf a _ b s' hb
  exact ⟨vs ++ ws, h a b vs ws hvs hws, hjudged.append hjudged', by rw [List.foldl_append]⟩

/-- A part without visits of its own at its end. -/
theorem map {x : StateT Followed (Except Error) α} {f : α → β} (hx : r.Traces x P)
    (h : ∀ a vs, P a vs → Q (f a) vs) : r.Traces (x >>= fun a => Pure.pure (f a)) Q :=
  hx.bind (R := fun a b vs => b = f a ∧ vs = []) (fun a => .pure ⟨rfl, rfl⟩) fun a b vs ws hvs hws => by
    obtain ⟨rfl, rfl⟩ := hws
    rw [List.append_nil]
    exact h a vs hvs

end Traces

section Values

variable {write : WriteReference Followed} {around : List FactId}

/-- How references are written inside the facts `around`. -/
def TracesReferences (r : Rendering) (write : WriteReference Followed) (around : List FactId) : Prop :=
  ∀ (a : Spot) (p : Predicate) (id : FactId), a.around = around →
    r.Traces (write id p a.path) (r.Writes a (.predicate p) (.fact id))

mutual
theorem traces_encodeJson (hwrite : r.TracesReferences write around) :
    (v : Value) → (ty : Ty) → (a : Spot) → a.around = around →
      r.Traces (ty.encodeJson write a.path v) (r.Writes a ty v)
  | .byte n, ty, a, ha => by
      cases ty with
      | byte => exact .pure (.byte a n)
      | _ => exact .throw
  | .nat n, ty, a, ha => by
      cases ty with
      | nat => exact .pure (.nat a n)
      | _ => exact .throw
  | .bool b, ty, a, ha => by
      cases ty with
      | bool => exact .pure (.bool a b)
      | _ => exact .throw
  | .string s, ty, a, ha => by
      cases ty with
      | string => exact .pure (.string a s)
      | _ => exact .throw
  | .fact id, ty, a, ha => by
      cases ty with
      | predicate p => exact hwrite a p id ha
      | _ => exact .throw
  | .array items, ty, a, ha => by
      cases ty with
      | array elem =>
          rw [Ty.encodeJson]
          exact (traces_encodeItems hwrite items elem a 0 ha).map fun js vs h => .array h
      | _ => exact .throw
  | .record values, ty, a, ha => by
      cases ty with
      | record fields =>
          rw [Ty.encodeJson]
          split
          · rename_i hlen
            exact (traces_encodeFields hwrite values fields a 0 ha hlen).map fun ms vs h =>
              .record hlen h
          · exact .throw
      | _ => exact .throw
  | .alt index payload, ty, a, ha => by
      cases ty with
      | sum alts =>
          rw [Ty.encodeJson]
          split
          · rename_i alt halt
            exact (traces_encodeJson hwrite payload alt.ty
              (a.turn (.alternative index.toNat) [alt.name]) ha).map fun j vs h => .alt halt h
          · exact .throw
      | _ => exact .throw

theorem traces_encodeItems (hwrite : r.TracesReferences write around) :
    (items : List Value) → (elem : Ty) → (a : Spot) → (i : Nat) → a.around = around →
      r.Traces (Ty.encodeItems write a.path elem items) (r.WritesItems a i elem items)
  | [], elem, a, i, ha => by
      rw [Ty.encodeItems]
      exact .pure (.nil a i elem)
  | v :: vs, elem, a, i, ha => by
      have hv := traces_encodeJson hwrite v elem (a.turn (.item i) []) ha
      rw [Spot.path_turn, List.append_nil] at hv
      rw [Ty.encodeItems]
      refine hv.bind (fun j => (traces_encodeItems hwrite vs elem a (i + 1) ha).map
        (Q := fun js ws => ∃ rest, js = j :: rest ∧ r.WritesItems a (i + 1) elem vs rest ws)
        fun js ws h => ⟨js, rfl, h⟩) fun j js us ws hj hjs => ?_
      obtain ⟨rest, rfl, hrest⟩ := hjs
      exact .cons hj hrest

theorem traces_encodeFields (hwrite : r.TracesReferences write around) :
    (values : List Value) → (fields : List Field) → (a : Spot) → (i : Nat) → a.around = around →
      fields.length = values.length →
      r.Traces (Ty.encodeFields write a.path fields values) (r.WritesFields a i fields values)
  | [], [], a, i, ha, hlen => by
      rw [Ty.encodeFields]
      · exact .pure (.nil a i)
      · simp
  | v :: vs, f :: fs, a, i, ha, hlen => by
      have hv := traces_encodeJson hwrite v f.ty (a.turn (.field i) [f.name]) ha
      have hvs := traces_encodeFields hwrite vs fs a (i + 1) ha (Nat.succ.inj hlen)
      rw [Ty.encodeFields]
      refine hv.bind (fun j => hvs.map
        (Q := fun ms ws => ∃ rest, ms = (f.name, j) :: rest ∧ r.WritesFields a (i + 1) fs vs rest ws)
        fun ms ws h => ⟨ms, rfl, h⟩) fun j ms us ws hj hms => ?_
      obtain ⟨rest, rfl, hrest⟩ := hms
      exact .cons hj hrest
end

theorem traces_factJson {a : Spot} {f : Fact} (hwrite : r.TracesReferences write a.around) :
    r.Traces (r.factJson write a.path f) (r.WritesFact a f) := by
  unfold factJson
  split
  · exact .throw
  · rename_i d hd
    have hkey := traces_encodeJson hwrite f.key d.key (a.turn .key []) rfl
    rw [Spot.path_turn, List.append_nil] at hkey
    cases hvalue : f.value? with
    | none => exact hkey.map fun j vs h => .key hd hvalue h
    | some v =>
        have hv := traces_encodeJson hwrite v d.value (a.turn .value [valueRoot]) rfl
        refine hkey.bind (R := fun j k ws =>
          ∃ k', k = .object [("id", .nat f.id.number), ("key", j), ("value", k')] ∧
            r.Writes (a.turn .value [valueRoot]) d.value v k' ws) (fun j => ?_) ?_
        · exact hv.map fun k ws h => ⟨k, rfl, h⟩
        · rintro j _ us ws hj ⟨k, rfl, hk⟩
          exact .keyValue hd hvalue hj hk

end Values

section References

variable {depth : Nat} {around : List FactId} {id : FactId} {p : Predicate} {path : List String}
  {s s' : Followed} {j : Json}

/-- What writing a reference comes to. -/
theorem writeReference_cases
    (h : r.writeReference (depth + 1) around id p path s = .ok (j, s')) :
    (j = id.toJson ∧ s' = s ∧ (r.noExpand.contains path = true ∨ r.policy.expands p = false ∨
      id ∈ around ∨ (around.head?.getD id, id) ∈ s)) ∨
    ((r.noExpand.contains path = false ∧ r.policy.expands p = true ∧ id ∉ around ∧
      (around.head?.getD id, id) ∉ s) ∧
      ((r.read id p = .ok none ∧ j = id.toJson ∧ s' = (around.head?.getD id, id) :: s) ∨
        ∃ f, r.read id p = .ok (some f) ∧
          r.factJson (r.writeReference depth (id :: around)) path f
            ((around.head?.getD id, id) :: s) = .ok (j, s'))) := by
  rw [writeReference] at h
  by_cases htest : (r.noExpand.contains path || !r.policy.expands p || around.contains id) = true
  · rw [if_pos htest] at h
    obtain ⟨rfl, rfl⟩ := Outcome.stateT_pure_ok_iff.mp h
    simp only [Bool.or_eq_true, Bool.not_eq_true', List.contains_iff_mem] at htest
    exact .inl ⟨rfl, rfl, by tauto⟩
  rw [if_neg htest] at h
  simp only [Bool.or_eq_true, Bool.not_eq_true', List.contains_iff_mem, not_or, Bool.not_eq_true,
    Bool.not_eq_false] at htest
  obtain ⟨⟨hpath, hpolicy⟩, hid⟩ := htest
  obtain ⟨t, t', hget, hrest⟩ := Outcome.stateT_bind_ok_iff.mp h
  obtain ⟨rfl, rfl⟩ := Outcome.stateT_get_ok_iff.mp hget
  by_cases hpair : (around.head?.getD id, id) ∈ t'
  · rw [if_pos (List.contains_iff_mem.mpr hpair)] at hrest
    obtain ⟨rfl, rfl⟩ := Outcome.stateT_pure_ok_iff.mp hrest
    exact .inl ⟨rfl, rfl, .inr (.inr (.inr hpair))⟩
  rw [if_neg (mt List.contains_iff_mem.mp hpair)] at hrest
  refine .inr ⟨⟨hpath, hpolicy, hid, hpair⟩, ?_⟩
  obtain ⟨⟨⟩, u, hmodify, hread⟩ := Outcome.stateT_bind_ok_iff.mp hrest
  obtain rfl := (Prod.mk.inj (Except.ok.inj hmodify)).2
  obtain ⟨found, u', hlift, hwrite⟩ := Outcome.stateT_bind_ok_iff.mp hread
  obtain ⟨hfound, rfl⟩ := Outcome.stateT_lift_ok_iff.mp hlift
  cases found with
  | none =>
      obtain ⟨rfl, rfl⟩ := Outcome.stateT_pure_ok_iff.mp hwrite
      exact .inl ⟨hfound, rfl, rfl⟩
  | some f => exact .inr ⟨f, hfound, hwrite⟩

/-- A reference that stays as it is for a reason. -/
theorem left_judged {a : Spot} (hwhy : ¬ r.Passes ⟨a, id, p, id.toJson⟩ ∨
      (⟨a, id, p, id.toJson⟩ : Visit).pair ∈ s ∨ r.read id p = .ok none) :
    ∃ vs, r.Writes a (.predicate p) (.fact id) id.toJson vs ∧ r.Judged s vs ∧
      r.follow s ⟨a, id, p, id.toJson⟩ = vs.foldl r.follow s :=
  ⟨_, .left a p id, ⟨⟨⟨fun _ => hwhy, fun _ => rfl⟩, fun hplaced => absurd rfl hplaced⟩, trivial⟩, rfl⟩

/-- References are written as they are judged, if there is room for just as many facts as may
still be nested. -/
theorem traces_writeReference (hdepth : depth + around.length = maxExpansion) :
    r.TracesReferences (r.writeReference depth around) around := by
  induction depth generalizing around with
  | zero =>
      intro a p id ha s j s' hrun
      obtain ⟨rfl, rfl⟩ := Outcome.stateT_pure_ok_iff.mp hrun
      have hfull : ¬ r.Passes ⟨a, id, p, id.toJson⟩ := by
        rintro ⟨-, -, -, hlt⟩
        rw [ha] at hlt
        omega
      obtain ⟨vs, hvs, hjudged, hfollow⟩ := left_judged (s := s) (.inl hfull)
      rw [follow_of_not_passes hfull] at hfollow
      exact ⟨vs, hvs, hjudged, hfollow⟩
  | succ depth ih =>
      intro a p id ha s j s' hrun
      subst ha
      rcases writeReference_cases hrun with ⟨rfl, rfl, hwhy⟩ | ⟨⟨hpath, hpolicy, hid, hnew⟩, hwritten⟩
      · have hstays : ¬ r.Passes ⟨a, id, p, id.toJson⟩ ∨ (⟨a, id, p, id.toJson⟩ : Visit).pair ∈ s' := by
          rcases hwhy with hpath | hpolicy | hid | hold
          · exact .inl fun hpass => Bool.noConfusion (hpath.symm.trans hpass.1)
          · exact .inl fun hpass => Bool.noConfusion (hpolicy.symm.trans hpass.2.1)
          · exact .inl fun hpass => hpass.2.2.1 hid
          · exact .inr hold
        obtain ⟨vs, hvs, hjudged, hfollow⟩ := left_judged (hstays.imp_right .inl)
        rw [follow, if_neg fun h => hstays.elim (· h.1) h.2] at hfollow
        exact ⟨vs, hvs, hjudged, hfollow⟩
      · -- the pair is followed, whether the fact can then be read or not
        have hpass : ∀ k, r.Passes ⟨a, id, p, k⟩ := fun k =>
          ⟨hpath, hpolicy, hid, show a.around.length < maxExpansion by omega⟩
        have hfollow : ∀ k, r.follow s ⟨a, id, p, k⟩ = (a.around.head?.getD id, id) :: s := fun k =>
          if_pos ⟨hpass k, hnew⟩
        rcases hwritten with ⟨hnone, rfl, rfl⟩ | ⟨f, hf, hwritten⟩
        · obtain ⟨vs, hvs, hjudged, hfollow'⟩ := left_judged (s := s) (a := a) (.inr (.inr hnone))
          exact ⟨vs, hvs, hjudged, hfollow id.toJson ▸ hfollow'⟩
        · have hinside : r.TracesReferences (r.writeReference depth (id :: a.around)) (a.inside id).around :=
            ih (by rw [List.length_cons]; omega)
          obtain ⟨vs, hvs, hjudged, rfl⟩ := traces_factJson hinside _ _ _ hwritten
          have hplaced : ¬ (⟨a, id, p, j⟩ : Visit).IsLeft := hvs.ne_toJson id
          have hdecided : r.Decided s ⟨a, id, p, j⟩ := by
            refine ⟨⟨fun hleft => absurd hleft hplaced, ?_⟩, fun _ => ?_⟩
            · rintro (hfails | hold | hnone)
              · exact absurd (hpass j) hfails
              · exact absurd hold hnew
              · cases hf.symm.trans hnone
            · obtain ⟨m, ms, hj⟩ := hvs.object
              exact ⟨f, m :: ms, hf, hj⟩
          refine ⟨_, .placed id hf hvs, ⟨hdecided, ?_⟩, ?_⟩
          · rw [hfollow]
            exact hjudged
          · rw [List.foldl_cons, hfollow]

end References

/-! ## Results -/

theorem fact_judged {f : Fact} {j : Json} (h : r.fact f = .ok j) :
    ∃ vs, r.WritesFact (.inside .root f.id) f j vs ∧ r.Judged [] vs := by
  obtain ⟨⟨j', s⟩, hrun, rfl⟩ := Outcome.map_ok_iff.mp h
  have hinside : r.TracesReferences (r.writeReference (maxExpansion - 1) [f.id])
      (Spot.inside .root f.id).around := traces_writeReference rfl
  obtain ⟨vs, hvs, hjudged, -⟩ := traces_factJson hinside _ _ _ hrun
  exact ⟨vs, hvs, hjudged⟩

theorem value_judged {ty : Ty} {v : Value} {j : Json} (h : r.value ty v = .ok j) :
    ∃ k vs, j = .object [("key", k)] ∧ r.Writes .root ty v k vs ∧ r.Judged [] vs := by
  obtain ⟨⟨k, s⟩, hrun, hj⟩ := Outcome.bind_ok_iff.mp h
  obtain rfl := Except.ok.inj hj
  obtain ⟨vs, hvs, hjudged, -⟩ :=
    traces_encodeJson (traces_writeReference rfl) v ty .root rfl _ _ _ hrun
  exact ⟨k, vs, rfl, hvs, hjudged⟩

theorem not_passes_iff {v : Visit} : ¬ r.Passes v ↔
    r.noExpand.contains v.place.path = true ∨ r.policy.expands v.predicate = false ∨
      v.id ∈ v.place.around ∨ maxExpansion ≤ v.place.around.length := by
  rw [Passes, Classical.not_and_iff_not_or_not, Classical.not_and_iff_not_or_not,
    Classical.not_and_iff_not_or_not, Bool.not_eq_false, Bool.not_eq_true, Classical.not_not, Nat.not_lt]

/-- What the references that were met in a result have in common. -/
structure Sparing (r : Rendering) (vs : List Visit) : Prop where
  /-- What is written in place of a reference is an object for the fact that it refers to. -/
  object : ∀ v ∈ placed vs, ∃ ms, v.json = .object (("id", .nat v.id.number) :: ms)
  /-- No fact is written inside itself. -/
  apart : ∀ v ∈ placed vs, v.id ∉ v.place.around
  /-- With the facts around it and itself there are not too many nested in one another. -/
  shallow : ∀ v ∈ placed vs, v.place.around.length + 1 ≤ maxExpansion
  once : ((placed vs).map Visit.pair).Nodup
  few : (placed vs).length ≤ (vs.map Visit.pair).dedup.length
  left_iff : ∀ before v after, vs = before ++ v :: after →
    (v.IsLeft ↔ r.noExpand.contains v.place.path = true ∨ r.policy.expands v.predicate = false ∨
      v.id ∈ v.place.around ∨ maxExpansion ≤ v.place.around.length ∨
      (∃ w ∈ before, r.Passes w ∧ w.pair = v.pair) ∨ r.read v.id v.predicate = .ok none)

/-- The bounds follow from how each reference was decided. -/
theorem Judged.sparing (hread : ∀ id p f, r.read id p = .ok (some f) → f.id = id) {vs : List Visit}
    (h : r.Judged [] vs) : r.Sparing vs := by
  have hdecided : ∀ before v after, vs = before ++ v :: after →
      r.Decided (before.foldl r.follow []) v := fun before v after heq => (heq ▸ h).decided
  have hplaced : ∀ v ∈ placed vs, ¬ v.IsLeft ∧ ∃ s, r.Decided s v := by
    intro v hv
    obtain ⟨hmem, hplaced⟩ := mem_placed.mp hv
    obtain ⟨before, after, heq⟩ := List.append_of_mem hmem
    exact ⟨hplaced, _, hdecided before v after heq⟩
  have hpasses : ∀ v ∈ placed vs, r.Passes v := by
    intro v hv
    obtain ⟨hleft, s, hs⟩ := hplaced v hv
    exact (hs.passes hleft).1
  constructor
  · intro v hv
    obtain ⟨hleft, s, hs⟩ := hplaced v hv
    obtain ⟨f, ms, hf, hjson⟩ := hs.object hleft
    exact ⟨ms, hread v.id v.predicate f hf ▸ hjson⟩
  · exact fun v hv => (hpasses v hv).2.2.1
  · exact fun v hv => (hpasses v hv).2.2.2
  · exact h.nodup.1
  · have hsubset : (placed vs).map Visit.pair ⊆ (vs.map Visit.pair).dedup := fun e he => by
      obtain ⟨v, hv, rfl⟩ := List.mem_map.mp he
      exact List.mem_dedup.mpr (List.mem_map_of_mem (mem_placed.mp hv).1)
    simpa using (List.subperm_of_subset h.nodup.1 hsubset).length_le
  · intro before v after heq
    rw [(hdecided before v after heq).left_iff, not_passes_iff, mem_foldl_follow_iff]
    simp only [List.not_mem_nil, false_or, or_assoc]

end Rendering

section Readings

variable {σ : Type} [FactStore σ] {r : Reading σ} {overlay : Overlay}

/-- A fact that is read is of the predicate that was asked for, and is a derived fact or else has
the id of the stored one. -/
theorem Reading.read_found {id : FactId} {p : Predicate} {f : Fact}
    (h : r.read overlay id p = .ok (some f)) : f.predicate = p ∧
      (overlay.get? id = some f ∨ ∃ g, FactStore.lookup r.store id = some g ∧ f.id = g.id) := by
  unfold read at h
  split at h
  · rename_i g hg
    have hfound := Except.ok.inj h
    split at hfound
    · rename_i hp
      obtain rfl := Option.some.inj hfound
      exact ⟨hp, .inl hg⟩
    · cases hfound
  · split at h
    · rename_i g hg
      split at h
      · obtain ⟨f', hconvert, hf⟩ := Outcome.map_ok_iff.mp h
        obtain rfl := Option.some.inj hf
        obtain ⟨c, -, hkey⟩ := Outcome.bind_ok_iff.mp hconvert
        obtain ⟨k, -, hvalue⟩ := Outcome.bind_ok_iff.mp hkey
        obtain ⟨v, -, hfact⟩ := Outcome.bind_ok_iff.mp hvalue
        obtain rfl := Except.ok.inj hfact
        exact ⟨rfl, .inr ⟨g, hg, rfl⟩⟩
      · cases h
    · cases h

/-- However the facts of a store and of an overlay refer to one another, in circles or not, a
result that is written has no fact inside itself, no more facts inside one another than there may
be, and no fact twice for the same referring one; and whatever reference in it stays as it is, it
does so for one of the reasons there are. -/
theorem expansion_sparing (r : Reading σ) (overlay : Overlay)
    (hstore : ∀ id f, FactStore.lookup r.store id = some f → f.id = id)
    (hoverlay : ∀ id f, overlay.get? id = some f → f.id = id) (schema : Schema)
    (policy : ExpandPolicy) (marked : SortedSet (List String)) (rendering : Rendering)
    (hrendering : rendering = ⟨r.read overlay, schema, policy, marked⟩) :
    (∀ f j, rendering.fact f = .ok j →
      ∃ vs, rendering.WritesFact (.inside .root f.id) f j vs ∧ rendering.Sparing vs) ∧
    ∀ ty v j, rendering.value ty v = .ok j →
      ∃ k vs, j = .object [("key", k)] ∧ rendering.Writes .root ty v k vs ∧ rendering.Sparing vs := by
  subst hrendering
  have hread : ∀ id p f, r.read overlay id p = .ok (some f) → f.id = id := by
    intro id p f h
    rcases (Reading.read_found h).2 with hderived | ⟨g, hg, heq⟩
    · exact hoverlay id f hderived
    · exact heq.trans (hstore id g hg)
  constructor
  · intro f j h
    obtain ⟨vs, hvs, hjudged⟩ := Rendering.fact_judged h
    exact ⟨vs, hvs, hjudged.sparing hread⟩
  · intro ty v j h
    obtain ⟨k, vs, hj, hvs, hjudged⟩ := Rendering.value_judged h
    exact ⟨k, vs, hj, hvs, hjudged.sparing hread⟩

end Readings

/-! ## Two facts in a circle -/

def loopSchema : Schema :=
  (Schema.ofText
    "schema loop.1 \x7b predicate Node : \x7b left : Node, right : Node \x7d \x7d").toOption.getD .builtin

def loopFact : Fact := ⟨⟨1024⟩, ⟨"loop.Node", 1⟩, .record [.fact ⟨1025⟩, .fact ⟨1025⟩], .unit⟩

/-- A store whose facts refer to each other, and the second one to itself as well. -/
def loopStore : MemoryStore :=
  { MemoryStore.empty with
    facts := .ofList [(⟨1024⟩, loopFact),
      (⟨1025⟩, ⟨⟨1025⟩, ⟨"loop.Node", 1⟩, .record [.fact ⟨1024⟩, .fact ⟨1025⟩], .unit⟩)] }

def loopRendering : Rendering :=
  ⟨(⟨loopStore, loopSchema, loopSchema, .stored⟩ : Reading MemoryStore).read ∅, loopSchema, .on, ∅⟩

theorem loopStore_ids (id : FactId) (f : Fact) (h : FactStore.lookup loopStore id = some f) : f.id = id := by
  have hall : ∀ e ∈ loopStore.facts.entries, e.2.id = e.1 := by decide +kernel
  exact hall (id, f) (SortedMap.get?_eq_some_iff.mp h)

/-- What is written for the first fact: the second one once, and no fact again inside it. -/
def loopText : String :=
  "\x7b\"id\":1024,\"key\":\x7b\"left\":\x7b\"id\":1025,\"key\":\x7b\"left\":\x7b\"id\":1024\x7d," ++
    "\"right\":\x7b\"id\":1025\x7d\x7d\x7d,\"right\":\x7b\"id\":1025\x7d\x7d\x7d"

theorem expansion_sparing_loop : ∃ j vs, loopRendering.fact loopFact = .ok j ∧ j.compact = loopText ∧
    loopRendering.WritesFact (.inside .root loopFact.id) loopFact j vs ∧ loopRendering.Sparing vs := by
  have hrun : (loopRendering.fact loopFact).toOption.any (·.compact = loopText) = true := by
    decide +kernel
  obtain ⟨j, hj, htext⟩ := (Option.any_eq_true _ _).mp hrun
  have hj := Outcome.mem_toOption_iff.mp hj
  obtain ⟨vs, hvs, hsparing⟩ := (expansion_sparing
    (⟨loopStore, loopSchema, loopSchema, .stored⟩ : Reading MemoryStore) ∅ loopStore_ids
    (fun _ _ h => nomatch h) loopSchema .on ∅ loopRendering rfl).1 loopFact j hj
  exact ⟨j, vs, hj, of_decide_eq_true htext, hvs, hsparing⟩

end Factbase
