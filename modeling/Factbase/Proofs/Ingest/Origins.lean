import Factbase.Proofs.Ingest.Staging

/-!
# Where staged facts come from

Facts of derived predicates are computed and not stored, and a group of a
file cannot give any. A definition on the spot is of the predicate that its
place asks for, whatever that is: so a file stages facts of stored
predicates only just if it defines none on the spot where a type has a
derived predicate (`FactFile.stage_origins`).

One half is that staging stages nothing but what the file spells, the other
that it brings about a fact for everything it spells. Facts that are there
already are not staged again, so the second half needs contents to be told
apart by their digests.
-/

namespace Factbase

/-! ## Stored and derived predicates -/

namespace Schema

/-- The facts of a predicate are stored. -/
def Stores (s : Schema) (p : Predicate) : Prop := ∃ d, s.get? p = some d ∧ d.isDerived = false

/-- The facts of a predicate are computed. -/
def Derives (s : Schema) (p : Predicate) : Prop := ∃ d, s.get? p = some d ∧ d.isDerived = true

theorem Defines.stores_or_derives {s : Schema} {p : Predicate} (h : s.Defines p) :
    s.Stores p ∨ s.Derives p := by
  obtain ⟨d, hd⟩ := h
  cases hderived : d.isDerived with
  | false => exact .inl ⟨d, hd, hderived⟩
  | true => exact .inr ⟨d, hd, hderived⟩

end Schema

/-- Documents define facts of predicates of the schema. -/
theorem Definition.Spells.defines {schema : Schema} (hs : schema.Coherent) {d : Definition}
    {key : Json} {value : Option Json} {q : Predicate} (h : d.Spells schema key value q)
    (hd : ∃ p, schema.get? p = some d) : schema.Defines q := by
  induction h with
  | self d key value =>
      obtain ⟨p, hp⟩ := hd
      rw [hs.named p d hp]
      exact ⟨d, hp⟩
  | nested _ _ hp _ ih => exact ih ⟨_, hp⟩

/-- A file defines a fact of a predicate on the spot, where a reference stands. -/
def FactFile.Nests (f : FactFile) (schema : Schema) (p : Predicate) : Prop :=
  ∃ g ∈ f.groups, ∃ d, definitionOf schema g.predicate = .ok d ∧
    ∃ e ∈ g.facts, ∃ place ∈ d.places e.key e.value, SpellsAt schema place.1 place.2 p

/-- What a file defines is a fact of one of its groups, or is defined on the spot. -/
theorem FactFile.spells_cases {f : FactFile} {schema : Schema} {p : Predicate}
    (h : f.Spells schema p) :
    (∃ g ∈ f.groups, ∃ d, definitionOf schema g.predicate = .ok d ∧ p = d.predicate) ∨
      f.Nests schema p := by
  obtain ⟨g, hg, d, hd, e, he, hspells⟩ := h
  rcases Definition.spells_iff.mp hspells with hself | hnested
  · exact .inl ⟨g, hg, d, hd, hself⟩
  · exact .inr ⟨g, hg, d, hd, e, he, hnested⟩

theorem FactFile.Nests.spells {f : FactFile} {schema : Schema} {p : Predicate}
    (h : f.Nests schema p) : f.Spells schema p := by
  obtain ⟨g, hg, d, hd, e, he, hnested⟩ := h
  exact ⟨g, hg, d, hd, e, he, Definition.spells_iff.mpr (.inr hnested)⟩

theorem FactFile.Spells.defines {f : FactFile} {schema : Schema} (hs : schema.Coherent)
    {p : Predicate} (h : f.Spells schema p) : schema.Defines p := by
  obtain ⟨g, -, d, hd, e, -, hspells⟩ := h
  exact Definition.Spells.defines hs hspells (definitionOf_defines hd).1

/-- Groups are of stored predicates. -/
theorem FactFile.definitionOf_stores {schema : Schema} (hs : schema.Coherent) {text : String}
    {d : Definition} (h : definitionOf schema text = .ok d) : schema.Stores d.predicate := by
  obtain ⟨⟨p, hp⟩, hstored⟩ := definitionOf_defines h
  rw [hs.named p d hp]
  exact ⟨d, hp, hstored⟩

/-! ## Only what is spelled is staged -/

section Stores

variable {σ : Type} [FactStore σ] {schema : Schema} {store : σ} {f : FactFile} {b : FactBatch}

/-- Every staged fact is one that the file defines. -/
theorem FactFile.spells_of_staged (h : f.stage schema store = .ok b) :
    ∀ fact ∈ b.facts, f.Spells schema fact.predicate := by
  refine FactFile.stageBy_preserves (P := fun b => ∀ fact ∈ b.facts, f.Spells schema fact.predicate)
    (fun p hp k v s id s' hs hinsert => ?_) ?_ h
  · unfold Staging.insert at hinsert
    split at hinsert
    · rename_i b' id' hstage
      cases hinsert
      rcases stage_cases hstage with ⟨rfl, -⟩ | ⟨rfl, -⟩ | ⟨rfl, -, -, -, -⟩
      · exact hs
      · exact hs
      · dsimp only
        rw [FactBatch.facts_push]
        exact List.forall_mem_append.mpr ⟨hs, List.forall_mem_singleton.mpr hp⟩
    · cases hinsert
  · simp [FactStore.newBatch, FactBatch.startingAt, FactBatch.facts]

/-- Whatever can be staged has groups of stored predicates. -/
theorem FactFile.groups_stored (hs : schema.Coherent) (h : f.stage schema store = .ok b) :
    ∀ g ∈ f.groups, ∃ d, definitionOf schema g.predicate = .ok d ∧ schema.Stores d.predicate := by
  unfold stage stageBy at h
  obtain ⟨s, hgroups, -⟩ := Outcome.bind_ok_iff.mp h
  have hgroups := Outcome.mapError_ok_iff.mp hgroups
  unfold stageGroups at hgroups
  generalize (⟨FactStore.newBatch store, ∅⟩ : Staging) = start at hgroups
  generalize f.groups = gs at hgroups
  induction gs generalizing start with
  | nil => simp
  | cons g gs ih =>
      rw [List.foldlM_cons] at hgroups
      obtain ⟨t, hstep, hrest⟩ := Outcome.bind_ok_iff.mp hgroups
      obtain ⟨d, hd, -⟩ := Outcome.bind_ok_iff.mp hstep
      exact List.forall_mem_cons.mpr ⟨⟨d, hd, definitionOf_stores hs hd⟩, ih t hrest⟩

end Stores

/-! ## All that is spelled is there -/

namespace Staging

variable {met : Content → Prop} {schema : Schema} {log : List Fact} {insert : Insert}
variable {α : Type} {s t u : Staging} {Q : Predicate → Prop}

/-- From one state of staging to a later one: facts stay, and there are facts of some predicates. -/
structure Brought (met : Content → Prop) (log : List Fact) (Q : Predicate → Prop) (s t : Staging) :
    Prop where
  batch : t.batch.Continues met log
  grows : s.batch.facts ⊆ t.batch.facts
  found : ∀ q, Q q → ∃ f ∈ t.all log, f.predicate = q

/-- A step of staging brings about facts of some predicates. -/
def Brings (met : Content → Prop) (log : List Fact) (Q : Predicate → Prop) (x : Step α) : Prop :=
  ∀ s a t, s.batch.Continues met log → x s = .ok (a, t) → Brought met log Q s t

theorem Brought.refl (hs : s.batch.Continues met log) (hQ : ∀ q, ¬ Q q) : Brought met log Q s s :=
  ⟨hs, List.Subset.refl _, fun q hq => (hQ q hq).elim⟩

/-- What is there stays there. -/
theorem Brought.trans {Q' : Predicate → Prop} (h : Brought met log Q s t)
    (h' : Brought met log Q' t u) : Brought met log (fun q => Q q ∨ Q' q) s u := by
  refine ⟨h'.batch, List.Subset.trans h.grows h'.grows, fun q hq => ?_⟩
  rcases hq with hq | hq
  · obtain ⟨f, hf, rfl⟩ := h.found q hq
    have hall : t.all log ⊆ u.all log := List.append_subset.mpr
      ⟨List.subset_append_left .., List.Subset.trans h'.grows (List.subset_append_right ..)⟩
    exact ⟨f, hall hf, rfl⟩
  · exact h'.found q hq

theorem Brought.mono {Q' : Predicate → Prop} (h : Brought met log Q s t) (hQ : ∀ q, Q' q → Q q) :
    Brought met log Q' s t :=
  ⟨h.batch, h.grows, fun q hq => h.found q (hQ q hq)⟩

theorem labelled_brings (label : UInt64) (p : Predicate) (hQ : ∀ q, ¬ Q q) :
    Brings met log Q (labelled label p) := by
  intro s id t hs h
  obtain ⟨rfl, -⟩ := labelled_eq h
  exact .refl hs hQ

/-- What a definition spells is there once the references in it have brought about what they spell
and its own fact is staged. -/
theorem define_brings (hinsert : ∀ p k v, Brings met log (· = p) (insert p k v))
    {read : ReadReference Staging} (hread : ∀ j p, Brings met log (SpellsAt schema p j) (read j p))
    (d : Definition) (label : Option UInt64) (key : Json) (value : Option Json) :
    Brings met log (d.Spells schema key value) (define insert read d label key value) := by
  intro s id s' hs h
  obtain ⟨k, v, t, u, hreads, hid, hbatch⟩ := define_reads h
  have hplaces : Brought met log
      (fun q => ∃ e ∈ d.places key value, SpellsAt schema e.1 e.2 q) s t := by
    generalize d.places key value = places at hreads
    clear hid h
    induction hreads with
    | nil => exact .refl hs (by simp)
    | cons hfirst _ ih =>
        have hfirst := hread _ _ _ _ _ hs hfirst
        exact (hfirst.trans (ih hfirst.batch)).mono fun q hq => by simpa using hq
  have hown := hplaces.trans (hinsert d.predicate k v t id u hplaces.batch hid)
  have hspells : Brought met log (d.Spells schema key value) s u :=
    hown.mono fun q hq => (Definition.spells_iff.mp hq).symm
  exact ⟨hbatch ▸ hspells.batch, hbatch ▸ hspells.grows, by rw [all, hbatch]; exact hspells.found⟩

/-- A number spells nothing. -/
theorem not_spellsAt {p q : Predicate} {j : Json}
    (hnone : ∀ members, j = .object members → members.lookup "key" = none) :
    ¬ SpellsAt schema p j q := by
  rintro ⟨members, key, d, hj, hkey, -, -⟩
  cases (hnone members hj).symm.trans hkey

/-- What a reference spells is there once it is read. The induction is on how deep definitions may
be nested. -/
theorem readReference_brings (hinsert : ∀ p k v, Brings met log (· = p) (insert p k v)) (depth : Nat)
    (j : Json) (p : Predicate) :
    Brings met log (SpellsAt schema p j) (readReference schema insert depth j p) := by
  induction depth generalizing j p with
  | zero =>
      intro s id s' hs h
      rcases reference_ok h with ⟨hnone, label, hlabel⟩ | ⟨_, _, _, _, _, -, -, -, hdefine, -⟩
      · exact labelled_brings label p (fun q => not_spellsAt hnone) s id s' hs hlabel
      · cases hdefine
  | succ depth ih =>
      intro s id s' hs h
      rcases reference_ok h with
        ⟨hnone, label, hlabel⟩ | ⟨members, key, d, label, define', rfl, hkey, hd, hdefine, h⟩
      · exact labelled_brings label p (fun q => not_spellsAt hnone) s id s' hs hlabel
      · cases hdefine
        have hdefined := define_brings hinsert ih d label key _ s id s' hs h
        refine hdefined.mono ?_
        rintro q ⟨members', key', d', hj, hkey', hd', hq⟩
        cases hj
        cases hkey.symm.trans hkey'
        cases hd.symm.trans hd'
        exact hq

end Staging

namespace FactFile

open Staging

variable {met : Content → Prop} {schema : Schema} {log : List Fact} {insert : Insert}

theorem stageEntries_brings (hinsert : ∀ p k v, Brings met log (· = p) (insert p k v))
    {d : Definition} {es : List FactEntry} {n : Nat} {s s' : Staging}
    (hs : s.batch.Continues met log) (h : stageEntries schema insert d n es s = .ok s') :
    Brought met log (fun q => ∃ e ∈ es, d.Spells schema e.key e.value q) s s' := by
  induction es generalizing n s with
  | nil =>
      cases h
      exact .refl hs (by simp)
  | cons e es ih =>
      rw [stageEntries] at h
      split at h
      · rename_i id t hentry
        have hfirst := define_brings hinsert (readReference_brings hinsert _) d _ _ _ s id t hs hentry
        exact (hfirst.trans (ih hfirst.batch h)).mono fun q hq => by simpa using hq
      · cases h

/-- Whatever a file defines is there once it is staged. -/
theorem found_of_spells (hinsert : ∀ p k v, Brings met log (· = p) (insert p k v)) {f : FactFile}
    {b b' : FactBatch} (hb : b.Continues met log) (h : f.stageBy schema insert b = .ok b')
    {p : Predicate} (hp : f.Spells schema p) : ∃ fact ∈ log ++ b'.facts, fact.predicate = p := by
  unfold stageBy at h
  obtain ⟨s, hgroups, hout⟩ := Outcome.bind_ok_iff.mp h
  cases hout
  have hgroups := Outcome.mapError_ok_iff.mp hgroups
  have hall : ∀ (gs : List FactGroup) (t : Staging), t.batch.Continues met log →
      stageGroups schema insert gs t = .ok s →
      Brought met log (fun q => ∃ g ∈ gs, ∃ d, definitionOf schema g.predicate = .ok d ∧
        ∃ e ∈ g.facts, d.Spells schema e.key e.value q) t s := by
    intro gs
    induction gs with
    | nil =>
        intro t ht h
        cases h
        exact .refl ht (by simp)
    | cons g gs ih =>
        intro t ht h
        rw [stageGroups, List.foldlM_cons] at h
        obtain ⟨u, hstep, hrest⟩ := Outcome.bind_ok_iff.mp h
        obtain ⟨d, hd, hentries⟩ := Outcome.bind_ok_iff.mp hstep
        have hfirst := stageEntries_brings hinsert ht hentries
        exact (hfirst.trans (ih u hfirst.batch hrest)).mono fun q hq => by simpa [hd] using hq
  exact (hall f.groups ⟨b, ∅⟩ hb hgroups).found p hp

end FactFile

/-! ## Files for a store -/

section Stores

variable {σ : Type} [FactStore σ] [LawfulFactStore σ] {schema : Schema} {store : σ}

open LawfulFactStore

theorem Staging.insertWithin_brings {met : Content → Prop} [DecidablePred met] {log : List Fact}
    (hholds : Holds store log) (hfree : CollisionFree met) (p : Predicate) (k v : Value) :
    Brings met log (· = p) (insertWithin met store p k v) := by
  intro s id s' hs h
  rcases insertWithin_cases hholds hfree hs h with ⟨rfl, f, hf, -, hp⟩ | ⟨rfl, rfl, hbatch⟩
  · exact ⟨hs, List.Subset.refl _, fun q hq => ⟨f, hf, hp.trans hq.symm⟩⟩
  · refine ⟨hbatch, FactBatch.facts_subset_push .., ?_⟩
    rintro q rfl
    refine ⟨⟨s.batch.next, q, k, v⟩, ?_, rfl⟩
    rw [all, FactBatch.facts_push]
    simp

/-- Staging gives facts to groups of stored predicates only, and each staged fact that is of a
derived predicate was defined on the spot at a place of that predicate. In a store of stored
predicates, a file stages facts of stored predicates only just if it defines no others on the
spot. -/
theorem FactFile.stage_origins (hschema : schema.Registered) {f : FactFile} {b : FactBatch}
    (h : f.stage schema store = .ok b) :
    (∀ g ∈ f.groups, ∃ d, definitionOf schema g.predicate = .ok d ∧ schema.Stores d.predicate) ∧
    (∀ fact ∈ b.facts, schema.Stores fact.predicate ∨
      schema.Derives fact.predicate ∧ f.Nests schema fact.predicate) ∧
    ∀ (met : Content → Prop) [DecidablePred met] (log : List Fact), Holds store log →
      Sound met log → CollisionFree met → f.Within met schema store →
      (∀ fact ∈ log, schema.Stores fact.predicate) →
      ((∀ fact ∈ b.facts, schema.Stores fact.predicate) ↔
        ∀ p, f.Nests schema p → schema.Stores p) := by
  have hs := hschema.coherent
  have horigin : ∀ fact ∈ b.facts, schema.Stores fact.predicate ∨ f.Nests schema fact.predicate := by
    intro fact hfact
    rcases spells_cases (spells_of_staged h fact hfact) with ⟨g, -, d, hd, heq⟩ | hnested
    · exact .inl (heq ▸ definitionOf_stores hs hd)
    · exact .inr hnested
  refine ⟨groups_stored hs h, fun fact hfact => ?_, ?_⟩
  · rcases horigin fact hfact with hstored | hnested
    · exact .inl hstored
    · rcases (hnested.spells.defines hs).stores_or_derives with hstored | hderived
      · exact .inl hstored
      · exact .inr ⟨hderived, hnested⟩
  · intro met _ log hholds hsound hfree hwithin hlog
    constructor
    · intro hall p hp
      have hstart : (FactStore.newBatch store).Continues met log := by
        rw [FactStore.newBatch, nextId_eq hholds]
        exact .startingAt hsound
      obtain ⟨fact, hfact, rfl⟩ := found_of_spells (Staging.insertWithin_brings hholds hfree) hstart
        (Outcome.mem_toOption_iff.mp (hwithin b (Outcome.mem_toOption_iff.mpr h))) hp.spells
      exact (List.mem_append.mp hfact).elim (hlog fact) (hall fact)
    · intro hnests fact hfact
      exact (horigin fact hfact).elim id (hnests _)

end Stores

/-! ## Visits of guests -/

/-- Every person is a guest, and guests are not stored. -/
def guestSchema : Schema :=
  (Schema.ofText "schema team.1 \x7b predicate Person : string
    predicate Guest : string X where team.Person X
    predicate Visit : Guest \x7d").toOption.getD .builtin

theorem guestSchema_registered : guestSchema.Registered := Schema.registered_ofText_getD _

/-- A visit of a guest who is defined on the spot. -/
def visitFile : FactFile :=
  ⟨"visits", [⟨"team.Visit", [⟨none, .object [("key", .string "Ann")], none⟩]⟩]⟩

def guestFact : Fact := ⟨.first, ⟨"team.Guest", 1⟩, .string "Ann", .unit⟩

def visitFact : Fact := ⟨⟨1025⟩, ⟨"team.Visit", 1⟩, .fact .first, .unit⟩

/-- The contents that the file brings. -/
def guestMet : List Content := [guestFact.content, visitFact.content]

theorem visitFile_staged :
    (∃ b, visitFile.stage guestSchema MemoryStore.empty = .ok b ∧ b.facts = [guestFact, visitFact]) ∧
      visitFile.Within (· ∈ guestMet) guestSchema MemoryStore.empty ∧
      ∃ d, guestSchema.get? guestFact.predicate = some d ∧ d.isDerived = true := by
  have hall : ((visitFile.stage guestSchema MemoryStore.empty).toOption.any fun b =>
        decide (b.facts = [guestFact, visitFact])) = true ∧
      (∀ b ∈ (visitFile.stage guestSchema MemoryStore.empty).toOption,
        b ∈ (visitFile.stageBy guestSchema (Staging.insertWithin (· ∈ guestMet) MemoryStore.empty)
          (FactStore.newBatch MemoryStore.empty)).toOption) ∧
      ((guestSchema.get? guestFact.predicate).any (·.isDerived)) = true := by decide +kernel
  obtain ⟨hstaged, hwithin, hderived⟩ := hall
  obtain ⟨b, hb, hfacts⟩ := (Option.any_eq_true _ _).mp hstaged
  obtain ⟨d, hd, hd'⟩ := (Option.any_eq_true _ _).mp hderived
  exact ⟨⟨b, Outcome.mem_toOption_iff.mp hb, of_decide_eq_true hfacts⟩, hwithin, d, hd, hd'⟩

theorem FactFile.stage_origins_visit :
    ∃ b, visitFile.stage guestSchema MemoryStore.empty = .ok b ∧
      (∀ fact ∈ b.facts, guestSchema.Stores fact.predicate ∨
        guestSchema.Derives fact.predicate ∧ visitFile.Nests guestSchema fact.predicate) ∧
      ((∀ fact ∈ b.facts, guestSchema.Stores fact.predicate) ↔
        ∀ p, visitFile.Nests guestSchema p → guestSchema.Stores p) := by
  obtain ⟨⟨b, hb, -⟩, hwithin, -⟩ := visitFile_staged
  have hinj : ∀ a ∈ guestMet, ∀ b ∈ guestMet,
      Blake3.hash (encode a) = Blake3.hash (encode b) → encode a = encode b := by decide +kernel
  have hfree : CollisionFree (· ∈ guestMet) := fun a b ha hb => hinj a ha b hb
  obtain ⟨-, horigins, hiff⟩ := stage_origins guestSchema_registered hb
  exact ⟨b, hb, horigins, hiff _ [] LawfulFactStore.holds_empty .nil hfree hwithin (by simp)⟩

/-- A file may define a guest on the spot, who is staged although guests are derived. -/
theorem FactFile.exists_staged_derived :
    guestSchema.Registered ∧ ∃ b, visitFile.stage guestSchema MemoryStore.empty = .ok b ∧
      ∃ fact ∈ b.facts, ∃ d, guestSchema.get? fact.predicate = some d ∧ d.isDerived = true := by
  obtain ⟨⟨b, hb, hfacts⟩, -, d, hd, hderived⟩ := visitFile_staged
  exact ⟨guestSchema_registered, b, hb, guestFact, by simp [hfacts], d, hd, hderived⟩

end Factbase
