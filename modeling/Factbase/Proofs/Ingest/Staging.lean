import Factbase.Ingest.Staging
import Factbase.Proofs.Schema.Reading
import Factbase.Proofs.Schema.Registered
import Factbase.Proofs.Store.Batches

/-!
# Staged facts agree with the schema

A file is staged under a schema on top of a log whose facts agree with
that schema. Whatever the file says, the facts of the batch agree with it
too: their keys and values are of the types of their predicate, and each
reference goes to a fact of the predicate that its position asks for,
whatever its version.

The invariant (`Staging.Good`) is about the batch and about the numbers
that stand for facts. It is kept by staging one fact, so by a definition
inside another one, so by a file.
-/

namespace Factbase

/-! ## Agreement -/

/-- A log has a fact with an id whose predicate has the name of `p`. -/
def HasTarget (log : List Fact) (p : Predicate) (id : FactId) : Prop :=
  ∃ g ∈ log, g.id = id ∧ g.predicate.name = p.name

theorem HasTarget.mono {log log' : List Fact} (h : log ⊆ log') {p : Predicate} {id : FactId}
    (ht : HasTarget log p id) : HasTarget log' p id := by
  obtain ⟨g, hg, hid, hname⟩ := ht
  exact ⟨g, h hg, hid, hname⟩

/-- A key and a value are of the types of a definition, and what they refer to is in a
log. -/
structure Definition.Admits (d : Definition) (log : List Fact) (k v : Value) : Prop where
  key : d.key.Conforms k
  value : d.value.Conforms v
  targets : ∀ e ∈ d.key.positions k ++ d.value.positions v, HasTarget log e.1 e.2

theorem Definition.Admits.mono {d : Definition} {log log' : List Fact} {k v : Value}
    (h : d.Admits log k v) (hsub : log ⊆ log') : d.Admits log' k v :=
  ⟨h.key, h.value, fun e he => (h.targets e he).mono hsub⟩

/-- The facts of a log are facts of predicates of a schema. -/
def Agrees (schema : Schema) (log : List Fact) : Prop :=
  ∀ f ∈ log, ∃ d, schema.get? f.predicate = some d ∧ d.Admits log f.key f.value

theorem Agrees.nil {schema : Schema} : Agrees schema [] := fun _ h => by cases h

theorem Agrees.snoc {schema : Schema} {log : List Fact} (h : Agrees schema log) {f : Fact}
    {d : Definition} (hd : schema.get? f.predicate = some d) (hf : d.Admits log f.key f.value) :
    Agrees schema (log ++ [f]) := by
  intro g hg
  have hsub : log ⊆ log ++ [f] := List.subset_append_left ..
  rcases List.mem_append.mp hg with hg | hg
  · obtain ⟨e, he, hadmits⟩ := h g hg
    exact ⟨e, he, hadmits.mono hsub⟩
  · obtain rfl := List.mem_singleton.mp hg
    exact ⟨d, hd, hf.mono hsub⟩

/-! ## The invariant -/

namespace Staging

/-- What staging on top of a log keeps. -/
structure Good (met : Content → Prop) (schema : Schema) (log : List Fact) (s : Staging) : Prop where
  batch : s.batch.Continues met log
  agrees : Agrees schema (log ++ s.batch.facts)
  labels : ∀ l id p, s.labels.get? l = some (id, p) → HasTarget (log ++ s.batch.facts) p id

/-- Staging as a state that grows. -/
def growth (met : Content → Prop) (schema : Schema) (log : List Fact) : Growth Staging where
  Inv := Good met schema log
  Le s t := s.batch.facts ⊆ t.batch.facts
  Target s := HasTarget (log ++ s.batch.facts)
  refl _ := List.Subset.refl _
  trans := List.Subset.trans
  mono h := HasTarget.mono (List.append_subset.mpr
    ⟨List.subset_append_left .., List.Subset.trans h (List.subset_append_right ..)⟩)

/-- The facts of staging: those below it and its own. -/
abbrev all (log : List Fact) (s : Staging) : List Fact := log ++ s.batch.facts

/-- Staging a fact that the schema admits keeps the invariant, and leads to a fact of its
predicate. -/
def InsertSound (met : Content → Prop) (schema : Schema) (log : List Fact) (insert : Insert) : Prop :=
  ∀ p d k v s id s', Good met schema log s → schema.get? p = some d → d.Admits (s.all log) k v →
    insert p k v s = .ok (id, s') →
    Good met schema log s' ∧ s.batch.facts ⊆ s'.batch.facts ∧
      ∃ f ∈ s'.all log, f.id = id ∧ f.predicate = p

variable {met : Content → Prop} {schema : Schema} {log : List Fact} {insert : Insert}

theorem Good.target {s : Staging} {f : Fact} (hf : f ∈ s.all log) :
    HasTarget (s.all log) f.predicate f.id :=
  ⟨f, hf, rfl, rfl⟩

/-- A number stands for the fact that it was given to. -/
theorem labelled_eq {label : UInt64} {p : Predicate} {s s' : Staging} {id : FactId}
    (h : labelled label p s = .ok (id, s')) :
    s' = s ∧ ∃ actual, s.labels.get? label = some (id, actual) ∧ actual.name = p.name := by
  unfold labelled at h
  obtain ⟨t, t', hget, hrest⟩ := Outcome.stateT_bind_ok_iff.mp h
  obtain ⟨rfl, rfl⟩ := Outcome.stateT_get_ok_iff.mp hget
  cases hlabel : t'.labels.get? label with
  | none =>
      simp only [hlabel] at hrest
      exact (Outcome.stateT_throw_ok_iff.mp hrest).elim
  | some found =>
      obtain ⟨id', actual⟩ := found
      simp only [hlabel] at hrest
      split at hrest
      · rename_i hname
        obtain ⟨rfl, rfl⟩ := Outcome.stateT_pure_ok_iff.mp hrest
        exact ⟨rfl, actual, rfl, hname⟩
      · exact (Outcome.stateT_throw_ok_iff.mp hrest).elim

/-- A number stands for a fact of the predicate's name. -/
theorem labelled_sound {label : UInt64} {p : Predicate} {s s' : Staging} {id : FactId}
    (hs : Good met schema log s) (h : labelled label p s = .ok (id, s')) :
    s' = s ∧ HasTarget (s.all log) p id := by
  obtain ⟨rfl, actual, hlabel, hname⟩ := labelled_eq h
  obtain ⟨g, hg, hid, hactual⟩ := hs.labels label id actual hlabel
  exact ⟨rfl, g, hg, hid, hactual.trans hname⟩

/-- A number that is set stood for no other fact. -/
theorem setLabel_eq {label : UInt64} {p : Predicate} {s s' : Staging} {id : FactId} {u : Unit}
    (h : setLabel label id p s = .ok (u, s')) :
    (∀ found ∈ s.labels.get? label, found.1 = id) ∧
      s' = { s with labels := s.labels.insert label (id, p) } := by
  unfold setLabel at h
  obtain ⟨t, t', hget, hrest⟩ := Outcome.stateT_bind_ok_iff.mp h
  obtain ⟨rfl, rfl⟩ := Outcome.stateT_get_ok_iff.mp hget
  cases hlabel : t'.labels.get? label with
  | none =>
      simp only [hlabel] at hrest
      exact ⟨fun _ h => (by cases h), Outcome.stateT_set_ok_iff.mp hrest⟩
  | some found =>
      simp only [hlabel] at hrest
      split at hrest
      · obtain ⟨_, t'', hthrow, -⟩ := Outcome.stateT_bind_ok_iff.mp hrest
        exact (Outcome.stateT_throw_ok_iff.mp hthrow).elim
      · rename_i hsame
        refine ⟨fun found' hfound => ?_, Outcome.stateT_set_ok_iff.mp hrest⟩
        obtain rfl := Option.some.inj hfound
        exact not_not.mp hsame

/-- The last steps of a definition: the fact is staged, and its number set if it has one. -/
def putLabelled (insert : Insert) (p : Predicate) (label : Option UInt64) (k v : Value) :
    Step FactId := do
  let id ← insert p k v
  match label with
  | some l => setLabel l id p
  | none => pure ()
  return id

/-- The documents of a definition are read, the key first, and then its fact is staged. Without a
document for the value it is the zero value. -/
theorem define_ok {read : ReadReference Staging} {d : Definition} {label : Option UInt64} {key : Json}
    {value : Option Json} {s s' : Staging} {id : FactId}
    (h : define insert read d label key value s = .ok (id, s')) :
    ∃ k t v u, d.key.decodeJson read [] key s = .ok (k, t) ∧
      ((∃ j, value = some j ∧ d.value.decodeJson read [] j t = .ok (v, u)) ∨
        value = none ∧ d.value.zero? = some v ∧ u = t) ∧
      putLabelled insert d.predicate label k v u = .ok (id, s') := by
  unfold define at h
  obtain ⟨k, t, hk, h⟩ := Outcome.stateT_bind_ok_iff.mp h
  cases value with
  | some j =>
      obtain ⟨v, u, hv, h⟩ := Outcome.stateT_bind_ok_iff.mp h
      exact ⟨k, t, v, u, hk, .inl ⟨j, rfl, hv⟩, h⟩
  | none =>
      cases hzero : d.value.zero? with
      | none =>
          simp only [hzero] at h
          obtain ⟨v, u, hv, -⟩ := Outcome.stateT_bind_ok_iff.mp h
          exact (Outcome.stateT_throw_ok_iff.mp hv).elim
      | some v =>
          simp only [hzero] at h
          obtain ⟨v', u, hv, h⟩ := Outcome.stateT_bind_ok_iff.mp h
          obtain ⟨rfl, rfl⟩ := Outcome.stateT_pure_ok_iff.mp hv
          exact ⟨k, t, v, t, hk, .inr ⟨rfl, rfl, rfl⟩, h⟩

/-- The fact is staged first, and a number that it is given changes no batch. -/
theorem putLabelled_ok {p : Predicate} {label : Option UInt64} {k v : Value} {s s' : Staging}
    {id : FactId} (h : putLabelled insert p label k v s = .ok (id, s')) :
    ∃ t, insert p k v s = .ok (id, t) ∧
      (s' = t ∨ ∃ l, s' = { t with labels := t.labels.insert l (id, p) }) := by
  obtain ⟨id', t, hid, h⟩ := Outcome.stateT_bind_ok_iff.mp h
  cases label with
  | none =>
      obtain ⟨rfl, rfl⟩ := Outcome.stateT_pure_ok_iff.mp h
      exact ⟨t, hid, .inl rfl⟩
  | some l =>
      obtain ⟨u, t', hlabel, hout⟩ := Outcome.stateT_bind_ok_iff.mp h
      obtain ⟨rfl, rfl⟩ := Outcome.stateT_pure_ok_iff.mp hout
      exact ⟨t, hid, .inr ⟨l, (setLabel_eq hlabel).2⟩⟩

/-- Letting a number stand for a fact that is there keeps the invariant. -/
theorem Good.setLabel {label : UInt64} {p : Predicate} {s : Staging} {id : FactId}
    (hs : Good met schema log s) (ht : HasTarget (s.all log) p id) :
    Good met schema log { s with labels := s.labels.insert label (id, p) } := by
  refine ⟨hs.batch, hs.agrees, fun l id' p' hl => ?_⟩
  dsimp only at hl
  rw [SortedMap.get?_insert] at hl
  split at hl
  · cases hl
    exact ht
  · exact hs.labels l id' p' hl

/-- Defining a fact keeps the invariant and leads to a fact of the predicate. -/
theorem define_sound (hs : schema.Coherent) (hnarrow : schema.Narrow)
    (hinsert : InsertSound met schema log insert) {read : ReadReference Staging}
    (hread : (growth met schema log).Reads read) {p : Predicate} {d : Definition}
    (hd : schema.get? p = some d) {label : Option UInt64} {key : Json} {value : Option Json}
    {s s' : Staging} {id : FactId} (hgood : Good met schema log s)
    (h : define insert read d label key value s = .ok (id, s')) :
    Good met schema log s' ∧ s.batch.facts ⊆ s'.batch.facts ∧ HasTarget (s'.all log) p id := by
  obtain ⟨hkeyTy, hvalueTy⟩ := Schema.readable hs hnarrow hd
  have hpred := hs.named p d hd
  obtain ⟨k, t₁, v, t₂, hk, hv, hput⟩ := define_ok h
  obtain ⟨hgood₁, hle₁, hkey, hkeyPoints⟩ := Ty.decodeJson_sound hread d.key hkeyTy hgood hk
  obtain ⟨hgood₂, hle₂, hvalue, hvaluePoints⟩ :
      Ty.ReadsTo (growth met schema log) t₁ t₂ d.value v := by
    rcases hv with ⟨j, -, hv⟩ | ⟨-, hzero, rfl⟩
    · exact Ty.decodeJson_sound hread d.value hvalueTy hgood₁ hv
    · obtain ⟨hfit, hrefs⟩ := Ty.zero?_fits (hvalueTy.mono fun _ h => h.defaults) hzero
      exact Ty.readsTo_leaf hgood₁ hfit hrefs
  have hadmits : d.Admits (t₂.all log) k v := by
    refine ⟨hkey, hvalue, fun e he => ?_⟩
    exact (List.mem_append.mp he).elim ((hkeyPoints.mono hle₂) e) (hvaluePoints e)
  rw [hpred] at hput
  obtain ⟨t₃, hid, hlabel⟩ := putLabelled_ok hput
  obtain ⟨hgood₃, hle₃, f, hf, rfl, rfl⟩ := hinsert p d k v t₂ id t₃ hgood₂ hd hadmits hid
  have hle := List.Subset.trans hle₁ (List.Subset.trans hle₂ hle₃)
  rcases hlabel with rfl | ⟨l, rfl⟩
  · exact ⟨hgood₃, hle, Good.target hf⟩
  · exact ⟨hgood₃.setLabel (Good.target hf), hle, Good.target hf⟩

/-- Looking for the number in a reference changes nothing. -/
theorem memberLabel_pure {members : List (String × Json)} {label : Option UInt64} {s t : Staging}
    (h : memberLabel members s = .ok (label, t)) : s = t := by
  unfold memberLabel at h
  cases hid : members.lookup "id" with
  | none =>
      simp only [hid] at h
      exact (Outcome.stateT_pure_ok_iff.mp h).2
  | some j =>
      cases j with
      | nat n =>
          simp only [hid] at h
          exact (Outcome.stateT_pure_ok_iff.mp h).2
      | _ =>
          simp only [hid] at h
          exact (Outcome.stateT_throw_ok_iff.mp h).elim

/-- A reference is a number, or a definition on the spot. -/
theorem reference_ok
    {nested : Option (Definition → Option UInt64 → Json → Option Json → Step FactId)} {j : Json}
    {p : Predicate} {s s' : Staging} {id : FactId} (h : reference schema nested j p s = .ok (id, s')) :
    ((∀ members, j = .object members → members.lookup "key" = none) ∧
      ∃ label, labelled label p s = .ok (id, s')) ∨
    ∃ members key d label define, j = .object members ∧ members.lookup "key" = some key ∧
      schema.get? p = some d ∧ nested = some define ∧
      define d label key (members.lookup "value") s = .ok (id, s') := by
  unfold reference at h
  split at h
  · exact .inl ⟨(by rintro members ⟨⟩), _, h⟩
  · rename_i members
    obtain ⟨label, t, hlabel, hrest⟩ := Outcome.stateT_bind_ok_iff.mp h
    obtain rfl := memberLabel_pure hlabel
    cases hkey : members.lookup "key" with
    | none =>
        cases label with
        | none =>
            simp only [hkey] at hrest
            exact (Outcome.stateT_throw_ok_iff.mp hrest).elim
        | some label =>
            simp only [hkey] at hrest
            refine .inl ⟨?_, label, hrest⟩
            rintro members' ⟨⟩
            exact hkey
    | some key =>
        cases nested with
        | none =>
            simp only [hkey] at hrest
            exact (Outcome.stateT_throw_ok_iff.mp hrest).elim
        | some define =>
            cases hd : schema.get? p with
            | none =>
                simp only [hkey, hd] at hrest
                exact (Outcome.stateT_throw_ok_iff.mp hrest).elim
            | some d =>
                simp only [hkey, hd] at hrest
                exact .inr ⟨members, key, d, label, define, rfl, hkey, rfl, rfl, hrest⟩
  · exact (Outcome.stateT_throw_ok_iff.mp h).elim

/-- A reference leads to a fact of the predicate's name, if a definition inside it does. -/
theorem reference_sound
    {nested : Option (Definition → Option UInt64 → Json → Option Json → Step FactId)}
    (hnested : ∀ define ∈ nested, ∀ p d, schema.get? p = some d → ∀ label key value s id s',
      Good met schema log s → define d label key value s = .ok (id, s') →
      Good met schema log s' ∧ s.batch.facts ⊆ s'.batch.facts ∧ HasTarget (s'.all log) p id) :
    (growth met schema log).Reads (reference schema nested) := by
  intro j p s id s' hgood h
  rcases reference_ok h with ⟨-, label, hlabel⟩ | ⟨members, key, d, label, define, -, -, hd, hdef, h⟩
  · obtain ⟨rfl, ht⟩ := labelled_sound hgood hlabel
    exact ⟨hgood, List.Subset.refl _, ht⟩
  · exact hnested define hdef p d hd label key _ s id s' hgood h

/-- References lead to facts of the predicate's name. The induction is on how deep
definitions may be nested. -/
theorem readReference_sound (hs : schema.Coherent) (hnarrow : schema.Narrow)
    (hinsert : InsertSound met schema log insert) (depth : Nat) :
    (growth met schema log).Reads (readReference schema insert depth) := by
  induction depth with
  | zero => exact reference_sound fun _ h => by cases h
  | succ depth ih =>
      refine reference_sound fun define hdefine p d hd label key value s id s' hgood h => ?_
      obtain rfl := Option.some.inj hdefine
      exact define_sound hs hnarrow hinsert ih hd hgood h

/-- Staging an entry keeps the invariant. -/
theorem entry_sound (hs : schema.Coherent) (hnarrow : schema.Narrow)
    (hinsert : InsertSound met schema log insert) {p : Predicate} {d : Definition}
    (hd : schema.get? p = some d) {e : FactEntry} {s s' : Staging} {id : FactId}
    (hgood : Good met schema log s) (h : entry schema insert d e s = .ok (id, s')) :
    Good met schema log s' :=
  (define_sound hs hnarrow hinsert (readReference_sound hs hnarrow hinsert _) hd hgood h).1

end Staging

/-! ## Files -/

namespace FactFile

variable {met : Content → Prop} {schema : Schema} {log : List Fact} {insert : Staging.Insert}

open Staging

/-- The definition that a file means is one of the schema, of facts that are stored. -/
theorem definitionOf_defines {text : String} {d : Definition}
    (h : definitionOf schema text = .ok d) :
    (∃ p, schema.get? p = some d) ∧ d.isDerived = false := by
  unfold definitionOf at h
  obtain ⟨d', hd', hrest⟩ := Outcome.bind_ok_iff.mp h
  have hresolved := Outcome.mapError_ok_iff.mp hd'
  split at hrest
  · cases hrest
  · rename_i hderived
    cases hrest
    refine ⟨?_, by simpa using hderived⟩
    split at hresolved
    · split at hresolved
      · exact Schema.resolve_defines hresolved
      · exact Schema.resolve_defines hresolved
    · exact Schema.resolve_defines hresolved

theorem stageEntries_sound (hs : schema.Coherent) (hnarrow : schema.Narrow)
    (hinsert : InsertSound met schema log insert) {p : Predicate} {d : Definition}
    (hd : schema.get? p = some d) {es : List FactEntry} {n : Nat} {s s' : Staging}
    (hgood : Good met schema log s) (h : stageEntries schema insert d n es s = .ok s') :
    Good met schema log s' := by
  induction es generalizing n s with
  | nil =>
      cases h
      exact hgood
  | cons e es ih =>
      rw [stageEntries] at h
      split at h
      · rename_i id t hentry
        exact ih (entry_sound hs hnarrow hinsert hd hgood hentry) h
      · cases h

/-- Staging a file keeps the invariant. -/
theorem stageBy_sound (hs : schema.Coherent) (hnarrow : schema.Narrow)
    (hinsert : InsertSound met schema log insert) {f : FactFile} {b b' : FactBatch}
    (hgood : Good met schema log ⟨b, ∅⟩) (h : f.stageBy schema insert b = .ok b') :
    b'.Continues met log ∧ Agrees schema (log ++ b'.facts) := by
  unfold stageBy at h
  obtain ⟨s, hs', hout⟩ := Outcome.bind_ok_iff.mp h
  cases hout
  have hgroups := Outcome.mapError_ok_iff.mp hs'
  have hend : Good met schema log s := by
    refine Outcome.foldlM_ok (fun g _ t t' ht hstep => ?_) hgood hgroups
    obtain ⟨d, hd, hentries⟩ := Outcome.bind_ok_iff.mp hstep
    obtain ⟨⟨p, hp⟩, -⟩ := definitionOf_defines hd
    exact stageEntries_sound hs hnarrow hinsert hp ht hentries
  exact ⟨hend.batch, hend.agrees⟩

end FactFile

/-! ## What files define

A file defines the facts of its entries, and those that their documents define on the spot. A
property of batches that staging facts of these predicates keeps is kept by the file. -/

/-- The places of the documents of a fact where references stand. -/
def Definition.places (d : Definition) (key : Json) (value : Option Json) : List (Predicate × Json) :=
  d.key.places key ++ (value.map d.value.places).getD []

/-- The documents of a fact define a fact of a predicate: the fact itself, or one that they define
where they have a reference. -/
inductive Definition.Spells (schema : Schema) :
    Definition → Json → Option Json → Predicate → Prop
  | self (d : Definition) (key : Json) (value : Option Json) : Spells schema d key value d.predicate
  | nested {d inner : Definition} {key key' : Json} {value : Option Json} {p q : Predicate}
      {members : List (String × Json)} : (p, .object members) ∈ d.places key value →
      members.lookup "key" = some key' → schema.get? p = some inner →
      Spells schema inner key' (members.lookup "value") q → Spells schema d key value q

/-- A reference at a place of a predicate defines a fact of `q`. -/
def SpellsAt (schema : Schema) (p : Predicate) (j : Json) (q : Predicate) : Prop :=
  ∃ members key d, j = .object members ∧ members.lookup "key" = some key ∧ schema.get? p = some d ∧
    d.Spells schema key (members.lookup "value") q

/-- What documents define is their own fact, or what their references define. -/
theorem Definition.spells_iff {schema : Schema} {d : Definition} {key : Json} {value : Option Json}
    {q : Predicate} : d.Spells schema key value q ↔
      q = d.predicate ∨ ∃ e ∈ d.places key value, SpellsAt schema e.1 e.2 q := by
  constructor
  · intro h
    cases h with
    | self => exact .inl rfl
    | nested he hkey hp hq => exact .inr ⟨_, he, _, _, _, rfl, hkey, hp, hq⟩
  · rintro (rfl | ⟨⟨p, j⟩, he, members, key', inner, rfl, hkey, hp, hq⟩)
    · exact .self d key value
    · exact .nested he hkey hp hq

/-- A file defines a fact of a predicate. -/
def FactFile.Spells (f : FactFile) (schema : Schema) (p : Predicate) : Prop :=
  ∃ g ∈ f.groups, ∃ d, definitionOf schema g.predicate = .ok d ∧
    ∃ e ∈ g.facts, d.Spells schema e.key e.value p

namespace Staging

open Outcome (Preserves)

variable {schema : Schema} {insert : Insert} {P : FactBatch → Prop}

/-- The references of both documents are read, and then the fact is staged. -/
theorem define_reads {read : ReadReference Staging} {d : Definition} {label : Option UInt64}
    {key : Json} {value : Option Json} {s s' : Staging} {id : FactId}
    (h : define insert read d label key value s = .ok (id, s')) :
    ∃ k v t u, Ty.ReadsAll read (d.places key value) s t ∧
      insert d.predicate k v t = .ok (id, u) ∧ s'.batch = u.batch := by
  obtain ⟨k, t₁, v, t₂, hk, hv, hput⟩ := define_ok h
  have hvalue : Ty.ReadsAll read ((value.map d.value.places).getD []) t₁ t₂ := by
    rcases hv with ⟨j, rfl, hv⟩ | ⟨rfl, -, rfl⟩
    · exact Ty.decodeJson_reads d.value hv
    · exact .nil _
  obtain ⟨t₃, hid, hlabel⟩ := putLabelled_ok hput
  refine ⟨k, v, t₂, t₃, (Ty.decodeJson_reads d.key hk).append hvalue, hid, ?_⟩
  rcases hlabel with rfl | ⟨l, rfl⟩ <;> rfl

theorem define_preserves {read : ReadReference Staging} {d : Definition} {label : Option UInt64}
    {key : Json} {value : Option Json}
    (hread : ∀ e ∈ d.places key value, Preserves (P ·.batch) (read e.2 e.1))
    (hinsert : ∀ k v, Preserves (P ·.batch) (insert d.predicate k v)) :
    Preserves (P ·.batch) (define insert read d label key value) := by
  intro s id s' hs h
  obtain ⟨k, v, t, u, hreads, hid, hbatch⟩ := define_reads h
  have ht : P t.batch := hreads.keeps (I := (P ·.batch)) hread hs
  rw [hbatch]
  exact hinsert k v t id u ht hid

theorem reference_preserves
    {nested : Option (Definition → Option UInt64 → Json → Option Json → Step FactId)} {p : Predicate}
    {j : Json} (hnested : ∀ define ∈ nested, ∀ members key d, j = .object members →
      members.lookup "key" = some key → schema.get? p = some d →
      ∀ label, Preserves (P ·.batch) (define d label key (members.lookup "value"))) :
    Preserves (P ·.batch) (reference schema nested j p) := by
  intro s id s' hs h
  rcases reference_ok h with ⟨-, label, hlabel⟩ | ⟨members, key, d, label, define, hj, hkey, hp, hdefine, h⟩
  · rwa [(labelled_eq hlabel).1]
  · exact hnested define hdefine members key d hj hkey hp label s id s' hs h

/-- A reference keeps what staging facts of the predicates that it spells keeps. The induction is on
how deep definitions may be nested. -/
theorem readReference_preserves (depth : Nat) {p : Predicate} {j : Json}
    (hinsert : ∀ q, SpellsAt schema p j q → ∀ k v, Preserves (P ·.batch) (insert q k v)) :
    Preserves (P ·.batch) (readReference schema insert depth j p) := by
  induction depth generalizing p j with
  | zero => exact reference_preserves fun _ hnone => by cases hnone
  | succ depth ih =>
      refine reference_preserves fun define hdefine members key d hj hkey hp label => ?_
      obtain rfl := Option.some.inj hdefine
      have hspells : ∀ q, d.Spells schema key (members.lookup "value") q → SpellsAt schema p j q :=
        fun q hq => ⟨members, key, d, hj, hkey, hp, hq⟩
      refine define_preserves (fun e he => ih fun q hq => ?_) ?_
      · exact hinsert q (hspells q (Definition.spells_iff.mpr (.inr ⟨e, he, hq⟩)))
      · exact hinsert _ (hspells _ (.self ..))

theorem entry_preserves {d : Definition} {e : FactEntry}
    (hinsert : ∀ p, d.Spells schema e.key e.value p → ∀ k v, Preserves (P ·.batch) (insert p k v)) :
    Preserves (P ·.batch) (entry schema insert d e) := by
  refine define_preserves (fun place hplace => readReference_preserves _ fun q hq => ?_) ?_
  · exact hinsert q (Definition.spells_iff.mpr (.inr ⟨place, hplace, hq⟩))
  · exact hinsert _ (.self ..)

end Staging

theorem FactFile.stageBy_preserves {P : FactBatch → Prop} {schema : Schema} {insert : Staging.Insert}
    {f : FactFile} (hinsert : ∀ p, f.Spells schema p → ∀ k v, Outcome.Preserves (P ·.batch) (insert p k v))
    {b b' : FactBatch} (hb : P b) (h : f.stageBy schema insert b = .ok b') : P b' := by
  have hentries : ∀ {d : Definition} {es : List FactEntry} {n : Nat} {s s' : Staging},
      (∀ e ∈ es, ∀ p, d.Spells schema e.key e.value p → ∀ k v, Outcome.Preserves (P ·.batch) (insert p k v)) →
      P s.batch → stageEntries schema insert d n es s = .ok s' → P s'.batch := by
    intro d es
    induction es with
    | nil =>
        intro n s s' _ hs h
        cases h
        exact hs
    | cons e es ih =>
        intro n s s' hes hs h
        obtain ⟨he, hes⟩ := List.forall_mem_cons.mp hes
        rw [stageEntries] at h
        split at h
        · rename_i id t hentry
          exact ih hes (Staging.entry_preserves he s id t hs hentry) h
        · cases h
  unfold stageBy at h
  obtain ⟨s, hs', hout⟩ := Outcome.bind_ok_iff.mp h
  cases hout
  refine Outcome.foldlM_ok (P := fun s => P s.batch) (fun g hg t t' ht hstep => ?_) hb
    (Outcome.mapError_ok_iff.mp hs')
  obtain ⟨d, hd, hstep⟩ := Outcome.bind_ok_iff.mp hstep
  exact hentries (fun e he p hp => hinsert p ⟨g, hg, d, hd, e, he, hp⟩) ht hstep

/-- A property of batches that staging a fact for a store keeps holds of the batch of any file
for the store. -/
theorem FactFile.stage_preserves {σ : Type} [FactStore σ] {store : σ} {P : FactBatch → Prop}
    (hstage : ∀ b b' p k v id, P b → FactStore.stage store b p k v = .ok (b', id) → P b')
    (hnew : P (FactStore.newBatch store)) {f : FactFile} {schema : Schema} {b : FactBatch}
    (h : f.stage schema store = .ok b) : P b := by
  refine stageBy_preserves (fun p _ k v s id s' hs hinsert => ?_) hnew h
  unfold Staging.insert at hinsert
  split at hinsert
  · rename_i b' id' heq
    cases hinsert
    exact hstage s.batch b' p k v id hs heq
  · cases hinsert

/-! ## Files for a store -/

section Stores

variable {σ : Type} [FactStore σ] {met : Content → Prop} [DecidablePred met]
variable {schema : Schema} {log : List Fact}

/-- Stage a fact, unless its content is not among those that are met. -/
def Staging.insertWithin (met : Content → Prop) [DecidablePred met] (store : σ) : Staging.Insert :=
  fun p k v => if met (p, k, v) then Staging.insert store p k v else throw .missingValue

/-- A file that can be staged brings contents only that are met. -/
def FactFile.Within (met : Content → Prop) [DecidablePred met] (f : FactFile) (schema : Schema)
    (store : σ) : Prop :=
  ∀ b ∈ (f.stage schema store).toOption,
    b ∈ (f.stageBy schema (Staging.insertWithin met store) (FactStore.newBatch store)).toOption

variable [LawfulFactStore σ] {store : σ}

open LawfulFactStore

/-- The facts of a batch with one more. -/
theorem FactBatch.facts_subset_push (b : FactBatch) (digest : Digest) (p : Predicate) (k v : Value) :
    b.facts ⊆ (b.push digest p k v).facts := by
  rw [FactBatch.facts_push]
  exact List.subset_append_left ..

/-- Staging finds a fact of the predicate that is there, or adds one. -/
theorem Staging.insertWithin_cases (hholds : Holds store log) (hfree : CollisionFree met)
    {p : Predicate} {k v : Value} {s s' : Staging} {id : FactId}
    (hbatch : s.batch.Continues met log) (h : insertWithin met store p k v s = .ok (id, s')) :
    (s' = s ∧ ∃ f ∈ s.all log, f.id = id ∧ f.predicate = p) ∨
      (id = s.batch.next ∧ s' = { s with batch := s.batch.push (contentDigest p k v) p k v } ∧
        s'.batch.Continues met log) := by
  unfold insertWithin at h
  split at h
  · rename_i hmet
    unfold Staging.insert at h
    split at h
    · rename_i b id' hstage
      cases h
      have hsound := hbatch.sound
      rcases stage_cases hstage with ⟨rfl, hfind⟩ | ⟨rfl, hfind⟩ | ⟨rfl, rfl, hstore, hnone, hdangling⟩
      · rw [find_eq hholds, hsound.of_append.find_iff hfree hmet] at hfind
        obtain ⟨f, hf, hcontent, hid⟩ := hfind
        exact .inl ⟨rfl, f, List.mem_append_left _ hf, hid, congrArg Prod.fst hcontent⟩
      · obtain ⟨e, he, hid⟩ := Option.map_eq_some_iff.mp hfind
        have hmem := List.mem_of_find?_eq_some he
        have hf : e.2 ∈ s.batch.facts := List.mem_map.mpr ⟨e, hmem, rfl⟩
        have hdigest : e.2.digest = contentDigest p k v := by
          rw [← hbatch.digest e hmem]
          simpa using List.find?_some he
        have hcontent : e.2.content = (p, k, v) := hfree.eq_of_hash unambiguous_content
          (hsound.met e.2 (List.mem_append_right _ hf)) hmet hdigest
        exact .inl ⟨rfl, e.2, List.mem_append_right _ hf, hid, congrArg Prod.fst hcontent⟩
      · have hnew := content_ne_of_find_none hholds hsound.of_append hfree hmet hstore
        exact .inr ⟨rfl, rfl, hbatch.push hmet hnew hnone hdangling⟩
    · cases h
  · exact (Outcome.stateT_throw_ok_iff.mp h).elim

/-- Staging a fact for a store keeps the invariant: a fact that is found by its content is
the fact that is staged. -/
theorem Staging.insertWithin_sound (hholds : Holds store log) (hfree : CollisionFree met) :
    Staging.InsertSound met schema log (Staging.insertWithin met store) := by
  intro p d k v s id s' hgood hd hadmits h
  rcases insertWithin_cases hholds hfree hgood.batch h with ⟨rfl, hfound⟩ | ⟨rfl, rfl, hbatch⟩
  · exact ⟨hgood, List.Subset.refl _, hfound⟩
  · have hsub := s.batch.facts_subset_push (contentDigest p k v) p k v
    have hall : s.all log ⊆ log ++ (s.batch.push (contentDigest p k v) p k v).facts :=
      List.append_subset.mpr
        ⟨List.subset_append_left .., List.Subset.trans hsub (List.subset_append_right ..)⟩
    refine ⟨⟨hbatch, ?_, fun l id p hl => (hgood.labels l id p hl).mono hall⟩, hsub,
      ⟨s.batch.next, p, k, v⟩, ?_, rfl, rfl⟩
    · rw [FactBatch.facts_push, ← List.append_assoc]
      exact hgood.agrees.snoc hd hadmits
    · rw [all, FactBatch.facts_push]
      simp

/-- The batch of a file goes on where the log of the store ends, and agrees with the schema
when the log does. -/
theorem FactFile.stage_sound (hholds : Holds store log) (hsound : Sound met log)
    (hfree : CollisionFree met) (hs : schema.Coherent) (hnarrow : schema.Narrow)
    (hagrees : Agrees schema log) {f : FactFile} (hwithin : f.Within met schema store)
    {b : FactBatch} (h : f.stage schema store = .ok b) :
    b.Continues met log ∧ Agrees schema (log ++ b.facts) := by
  have hstart : (FactStore.newBatch store).Continues met log := by
    rw [FactStore.newBatch, nextId_eq hholds]
    exact .startingAt hsound
  refine FactFile.stageBy_sound hs hnarrow (Staging.insertWithin_sound hholds hfree)
    ⟨hstart, ?_, fun l id p hl => by cases hl⟩
    (Outcome.mem_toOption_iff.mp (hwithin b (Outcome.mem_toOption_iff.mpr h)))
  simpa [FactStore.newBatch, FactBatch.startingAt, FactBatch.facts] using hagrees

/-- Once the batch of a file is committed, the store holds its facts as well, and all of them agree
with the schema. -/
theorem FactFile.commit_sound (hholds : Holds store log) (hsound : Sound met log)
    (hfree : CollisionFree met) (hkeeps : ∀ c, met c → Keeps σ c) (hs : schema.Coherent)
    (hnarrow : schema.Narrow) (hagrees : Agrees schema log) {f : FactFile}
    (hwithin : f.Within met schema store) {b : FactBatch} (hstage : f.stage schema store = .ok b)
    {store' : σ} (hcommit : FactStore.commit store b = .ok store') :
    Holds store' (log ++ b.facts) ∧ Sound met (log ++ b.facts) ∧ Agrees schema (log ++ b.facts) := by
  obtain ⟨hcontinues, hagrees'⟩ := stage_sound hholds hsound hfree hs hnarrow hagrees hwithin hstage
  have hstate : FactStore.state store = .building := by
    cases hcheck : b.checkCommit (FactStore.nextId store) (FactStore.state store) with
    | ok u => exact (FactBatch.checkCommit_ok_iff.mp hcheck).1
    | error e =>
        rw [commit_error hcheck] at hcommit
        cases hcommit
  obtain ⟨t, ht, hholds', -, -⟩ := commit_continues hholds hkeeps hcontinues hstate
  rw [ht] at hcommit
  cases hcommit
  exact ⟨hholds', hcontinues.sound, hagrees'⟩

end Stores

end Factbase
