import Factbase.Proofs.Ingest.Staging
import Factbase.Proofs.Query.Programs
import Factbase.Query.Results

/-!
# Following references

A file may refer to a fact at a position of a predicate by the number of the
fact, and staging asks only that the fact is of a predicate of that name.
Under the schema of the file a query then follows the reference just if the
version of the fact is not above the one of the position, and can be
converted to it (`FactFile.references_followed`). So it is for a fact of the
predicate itself, which a definition inside the reference always is. A fact
of a later version is stored and referred to, but is not found there.
-/

namespace Factbase

open LawfulFactStore

/-! ## What following leads to -/

namespace Reading

variable {σ : Type} [FactStore σ]

/-- A query finds a fact where it follows a reference: patterns there are matched against the key of
the fact, and a query that yields the reference yields the fact. -/
structure Follows (r : Reading σ) (overlay : Overlay) (p : Predicate) (id : FactId) (f : Fact) :
    Prop where
  read : r.read overlay id p = .ok (some f)
  matched : ∀ (key : Match) (env : Env),
    (Match.deref p key).against (r.read overlay) (.fact id) env = key.against (r.read overlay) f.key env
  yielded : ∀ q : CompiledQuery, q.plan.main.outcome = .fact p →
    q.factOf r overlay (.fact id) = .ok (some f)

theorem follows_iff {r : Reading σ} {overlay : Overlay} {p : Predicate} {id : FactId} {f : Fact} :
    r.Follows overlay p id f ↔ r.read overlay id p = .ok (some f) := by
  refine ⟨Follows.read, fun hread => ⟨hread, fun key env => ?_, fun q hq => ?_⟩⟩
  · have hlook : (OptionT.mk (r.read overlay id p) : Attempt Fact) = pure f := by
      rw [hread]
      rfl
    show (OptionT.mk (r.read overlay id p) >>= fun f => key.against _ f.key env) = _
    rw [hlook, pure_bind]
  · unfold CompiledQuery.factOf
    rw [hq]
    dsimp only
    rw [hread]
    rfl

variable [LawfulFactStore σ] {met : Content → Prop} {r : Reading σ} {log : List Fact} {w : World}

/-- In current mode a fact of some version of a predicate is found at those not below its own. -/
theorem Over.read_of_name (h : r.Over met log) (hw : w.Good r) (hmode : r.mode = .current) {f : Fact}
    (hf : f ∈ log) {p : Predicate} (hname : f.predicate.name = p.name) :
    r.read w.overlay f.id p =
      if f.predicate.version ≤ p.version then some <$> r.convert f p else .ok none := by
  rw [h.on.read_eq hw.clear hf]
  simp [readable, hmode, hname]

/-- A fact is read as what it is. -/
theorem Over.convert_self (h : r.Over met log) (hsame : r.target = r.stored) {f : Fact} (hf : f ∈ log) :
    r.convert f f.predicate = .ok f := by
  obtain ⟨d, hd, -, -⟩ := h.fits f hf
  have hbetween (ty : Ty) : Conversion.between ty ty = .ok .identity := by
    rw [Conversion.between.eq_def, if_pos rfl]
  have hconversion : r.conversion f.predicate f.predicate = .ok ⟨.identity, .identity⟩ := by
    unfold conversion
    rw [hsame, hd]
    dsimp only
    rw [hbetween, hbetween]
    split <;> rfl
  exact convert_ok_iff.mpr ⟨_, f.key, f.value, hconversion, Conversion.apply_identity _,
    Conversion.apply_identity _, rfl⟩

theorem Over.convert_iff (h : r.Over met log) {f : Fact} (hf : f ∈ log) {p : Predicate} :
    (∃ g, r.convert f p = .ok g) ↔ ∃ c, r.conversion f.predicate p = .ok c := by
  constructor
  · rintro ⟨g, hg⟩
    obtain ⟨c, hc, -⟩ := Outcome.bind_ok_iff.mp hg
    exact ⟨c, hc⟩
  · rintro ⟨c, hc⟩
    obtain ⟨g, hg, -⟩ := h.on.convert_ok hf hc
    exact ⟨g, hg⟩

section Current

variable (h : r.Over met log) (hw : w.Good r) (hmode : r.mode = .current) {f : Fact} (hf : f ∈ log)
variable {p : Predicate}

include h hw hmode hf

theorem Over.follows_self (hsame : r.target = r.stored) : r.Follows w.overlay f.predicate f.id f := by
  rw [follows_iff, h.read_of_name hw hmode hf rfl, if_pos (UInt32.le_refl _), h.convert_self hsame hf]
  rfl

theorem Over.exists_follows_iff (hname : f.predicate.name = p.name) :
    (∃ g, r.Follows w.overlay p f.id g) ↔
      f.predicate.version ≤ p.version ∧ ∃ c, r.conversion f.predicate p = .ok c := by
  simp only [follows_iff]
  rw [h.read_of_name hw hmode hf hname, ← h.convert_iff hf]
  by_cases hle : f.predicate.version ≤ p.version
  · rw [if_pos hle, and_iff_right hle]
    constructor
    · rintro ⟨g, hg⟩
      obtain ⟨g', hg', -⟩ := Outcome.map_ok_iff.mp hg
      exact ⟨g', hg'⟩
    · rintro ⟨g, hg⟩
      exact ⟨g, by rw [hg]; rfl⟩
  · simp [hle]

theorem Over.read_of_above (hname : f.predicate.name = p.name) (hlt : p.version < f.predicate.version) :
    r.read w.overlay f.id p = .ok none := by
  rw [h.read_of_name hw hmode hf hname, if_neg (UInt32.not_le.mpr hlt)]

end Current

end Reading

/-! ## Stores that files have been committed to -/

variable {σ : Type} [FactStore σ] [LawfulFactStore σ] {met : Content → Prop} [DecidablePred met]

/-- The stores that ingestion under a schema leads to, file by file. -/
inductive Ingested (met : Content → Prop) [DecidablePred met] (schema : Schema) : σ → Prop
  | empty : Ingested met schema LawfulFactStore.empty
  | file {store store' : σ} {f : FactFile} {b : FactBatch} : Ingested met schema store →
      f.Within met schema store → f.stage schema store = .ok b →
      FactStore.commit store b = .ok store' → Ingested met schema store'

theorem Ingested.exists_log {schema : Schema} {store : σ} (h : Ingested met schema store)
    (hfree : CollisionFree met) (hkeeps : ∀ c, met c → Keeps σ c) (hs : schema.Coherent)
    (hnarrow : schema.Narrow) :
    ∃ log, Holds store log ∧ Sound met log ∧ Agrees schema log := by
  induction h with
  | empty => exact ⟨[], holds_empty, .nil, .nil⟩
  | file _ hwithin hstage hcommit ih =>
      obtain ⟨log, hholds, hsound, hagrees⟩ := ih
      exact ⟨_, FactFile.commit_sound hholds hsound hfree hkeeps hs hnarrow hagrees hwithin hstage
        hcommit⟩

/-- What a reference at a position leads to, where a file has been committed: the fact that is
meant has the name of the predicate there. It is found as what it is; it is found at all just if
its version is not above that of the position and can be read as it; and if it is above, nothing is
found. -/
theorem FactFile.references_followed (hfree : CollisionFree met) (hkeeps : ∀ c, met c → Keeps σ c)
    {schema : Schema} (hschema : schema.Registered) (hnarrow : schema.Narrow) {store : σ}
    (hstore : Ingested met schema store) {f : FactFile} (hwithin : f.Within met schema store)
    {b : FactBatch} (hstage : f.stage schema store = .ok b) {store' : σ}
    (hcommit : FactStore.commit store b = .ok store')
    (hroom : FactStore.size store' < 2 ^ 64 - 1024) {w : World}
    (hw : w.Good ⟨store', schema, schema, .current⟩) :
    let r : Reading σ := ⟨store', schema, schema, .current⟩
    (∀ g ∈ b.facts, g ∈ FactStore.committed store') ∧
      ∀ g ∈ FactStore.committed store', ∃ d, schema.get? g.predicate = some d ∧
        ∀ e ∈ d.key.positions g.key ++ d.value.positions g.value,
          ∃ t ∈ FactStore.committed store', t.id = e.2 ∧ t.predicate.name = e.1.name ∧
            (t.predicate = e.1 → r.Follows w.overlay e.1 e.2 t) ∧
            ((∃ t', r.Follows w.overlay e.1 e.2 t') ↔
              t.predicate.version ≤ e.1.version ∧ ∃ c, r.conversion t.predicate e.1 = .ok c) ∧
            (e.1.version < t.predicate.version → r.read w.overlay e.2 e.1 = .ok none) := by
  intro r
  have hs := hschema.coherent
  obtain ⟨log, hholds, hsound, hagrees⟩ := hstore.exists_log hfree hkeeps hs hnarrow
  obtain ⟨hholds', hsound', hagrees'⟩ :=
    FactFile.commit_sound hholds hsound hfree hkeeps hs hnarrow hagrees hwithin hstage hcommit
  have hlen : (log ++ b.facts).length < 2 ^ 64 - 1024 := by
    have := LawfulFactStore.size_eq hholds'
    omega
  have hfits : ∀ g ∈ log ++ b.facts, schema.Fits g := fun g hg => by
    obtain ⟨d, hd, hadmits⟩ := hagrees' g hg
    exact ⟨d, hd, hadmits.key, hadmits.value⟩
  have hover : r.Over met (log ++ b.facts) :=
    ⟨hholds', hsound', hlen, hfits, hs, hnarrow, fun hmode => nomatch hmode⟩
  rw [committed_eq hholds' hlen]
  refine ⟨fun g hg => List.mem_append_right _ hg, fun g hg => ?_⟩
  obtain ⟨d, hd, hadmits⟩ := hagrees' g hg
  refine ⟨d, hd, fun e he => ?_⟩
  obtain ⟨t, ht, hid, hname⟩ := hadmits.targets e he
  refine ⟨t, ht, hid, hname, fun heq => ?_, ?_, fun hlt => ?_⟩
  · rw [← hid, ← heq]
    exact hover.follows_self hw rfl ht rfl
  · rw [← hid]
    exact hover.exists_follows_iff hw rfl ht hname
  · rw [← hid]
    exact hover.read_of_above hw rfl ht hname hlt

/-! ## Persons of two versions -/

/-- A lead is a person as the first version has them. -/
def teamSchema : Schema :=
  (Schema.ofText "schema team.1 \x7b predicate Person : string predicate Lead : Person \x7d
    schema team.2 : team.1 \x7b predicate Person : string \x7d").toOption.getD .builtin

theorem teamSchema_registered : teamSchema.Registered := Schema.registered_ofText_getD _

/-- Ann, who is a person of some version, is a lead. -/
def leadFile (person : String) : FactFile :=
  ⟨"leads", [⟨person, [⟨some 1, .string "Ann", none⟩]⟩, ⟨"team.Lead", [⟨none, .nat 1, none⟩]⟩]⟩

def annFact (version : UInt32) : Fact := ⟨.first, ⟨"team.Person", version⟩, .string "Ann", .unit⟩

def leadFact : Fact := ⟨⟨1025⟩, ⟨"team.Lead", 1⟩, .fact .first, .unit⟩

/-- The contents that the files bring. -/
def teamMet : List Content :=
  [(⟨"team.Person", 1⟩, .string "Ann", .unit), (⟨"team.Person", 2⟩, .string "Ann", .unit),
    (⟨"team.Lead", 1⟩, .fact .first, .unit)]

/-- The batch and the store that a file leads to. -/
def leadStore? (person : String) : Option (FactBatch × MemoryStore) := do
  let b ← ((leadFile person).stage teamSchema MemoryStore.empty).toOption
  return (b, ← (FactStore.commit MemoryStore.empty b).toOption)

/-- How a query reads a store of the team. -/
def teamReading (store : MemoryStore) : Reading MemoryStore := ⟨store, teamSchema, teamSchema, .current⟩

theorem exists_of_leadStore? {person : String} {b : FactBatch} {store : MemoryStore}
    (h : leadStore? person = some (b, store)) :
    (leadFile person).stage teamSchema MemoryStore.empty = .ok b ∧
      FactStore.commit MemoryStore.empty b = .ok store := by
  obtain ⟨b', hb', h⟩ := Option.bind_eq_some_iff.mp h
  obtain ⟨store', hstore', h⟩ := Option.bind_eq_some_iff.mp h
  cases h
  exact ⟨Outcome.mem_toOption_iff.mp hb', Outcome.mem_toOption_iff.mp hstore'⟩

/-- The lead is a position of a person. -/
theorem leadFact_positions : ∃ d, teamSchema.get? leadFact.predicate = some d ∧
    ((annFact 1).predicate, FactId.first) ∈
      d.key.positions leadFact.key ++ d.value.positions leadFact.value := by
  have hsome : (teamSchema.get? leadFact.predicate).any (fun d =>
      decide (((annFact 1).predicate, FactId.first) ∈
        d.key.positions leadFact.key ++ d.value.positions leadFact.value)) = true := by decide +kernel
  obtain ⟨d, hd, hposition⟩ := (Option.any_eq_true _ _).mp hsome
  exact ⟨d, hd, of_decide_eq_true hposition⟩

theorem FactFile.references_followed_lead :
    ∃ store : MemoryStore, FactStore.committed store = [annFact 1, leadFact] ∧
      (teamReading store).Follows ∅ (annFact 1).predicate .first (annFact 1) := by
  have hclosed : teamSchema.Narrow ∧
      (leadFile "team.Person.1").Within (· ∈ teamMet) teamSchema MemoryStore.empty ∧
      (leadStore? "team.Person.1").any (fun x => decide (FactStore.size x.2 < 2 ^ 64 - 1024 ∧
        FactStore.committed x.2 = [annFact 1, leadFact])) = true := by
    unfold Schema.Narrow FactFile.Within
    decide +kernel
  obtain ⟨hnarrow, hwithin, hsome⟩ := hclosed
  obtain ⟨⟨b, store⟩, hrun, h⟩ := (Option.any_eq_true _ _).mp hsome
  obtain ⟨hroom, hfacts⟩ := of_decide_eq_true h
  obtain ⟨hstage, hcommit⟩ := exists_of_leadStore? hrun
  have hinj : ∀ a ∈ teamMet, ∀ b ∈ teamMet,
      Blake3.hash (encode a) = Blake3.hash (encode b) → encode a = encode b := by decide +kernel
  have hfree : CollisionFree (· ∈ teamMet) := fun a b ha hb => hinj a ha b hb
  obtain ⟨-, hfollowed⟩ := references_followed hfree (fun _ _ => trivial) teamSchema_registered
    hnarrow .empty hwithin hstage hcommit hroom World.start_good
  obtain ⟨d, hd, hpositions⟩ := hfollowed leadFact (by simp [hfacts])
  obtain ⟨d', hd', hposition⟩ := leadFact_positions
  cases hd.symm.trans hd'
  obtain ⟨t, ht, hid, -, hself, -⟩ := hpositions _ hposition
  refine ⟨store, hfacts, ?_⟩
  rw [hfacts, List.mem_pair] at ht
  rcases ht with rfl | rfl
  · exact hself rfl
  · cases hid

/-- The fact that a query fails for not finding. -/
def missingFact? : Except Error QueryResults → Option FactId
  | .error (.notFound (.fact id)) => some id
  | _ => none

theorem missingFact?_eq_some_iff {o : Except Error QueryResults} {id : FactId} :
    missingFact? o = some id ↔ o = .error (.notFound (.fact id)) := by
  constructor
  · intro h
    unfold missingFact? at h
    split at h
    · cases h
      rfl
    · cases h
  · rintro rfl
    rfl

/-- A file may name a person of the second version where a lead wants one of the first. The
reference is accepted and the fact is stored, but a query does not find it. -/
theorem FactFile.accepted_but_not_followed :
    ∃ b store, (leadFile "team.Person.2").stage teamSchema MemoryStore.empty = .ok b ∧
      FactStore.commit MemoryStore.empty b = .ok store ∧ b.facts = [annFact 2, leadFact] ∧
      (∃ d, teamSchema.get? leadFact.predicate = some d ∧ ((annFact 1).predicate, FactId.first) ∈
        d.key.positions leadFact.key ++ d.value.positions leadFact.value) ∧
      FactStore.lookup store FactId.first = some (annFact 2) ∧
      (teamReading store).read ∅ .first (annFact 1).predicate = .ok none ∧
      ∃ q, CompiledQuery.ofText "team.Lead X; X" teamSchema .current = .ok q ∧
        q.execute store teamSchema default = .error (.notFound (.fact .first)) := by
  have hsome : (leadStore? "team.Person.2").any (fun x =>
      decide (x.1.facts = [annFact 2, leadFact] ∧ FactStore.lookup x.2 FactId.first = some (annFact 2) ∧
        ((teamReading x.2).read ∅ .first (annFact 1).predicate).toOption = some none ∧
        ((CompiledQuery.ofText "team.Lead X; X" teamSchema .current).toOption.bind fun q =>
          missingFact? (q.execute x.2 teamSchema default)) = some .first)) = true := by decide +kernel
  obtain ⟨⟨b, store⟩, hrun, h⟩ := (Option.any_eq_true _ _).mp hsome
  obtain ⟨hfacts, hheld, hread, hquery⟩ := of_decide_eq_true h
  obtain ⟨hstage, hcommit⟩ := exists_of_leadStore? hrun
  obtain ⟨q, hq, hmissing⟩ := Option.bind_eq_some_iff.mp hquery
  exact ⟨b, store, hstage, hcommit, hfacts, leadFact_positions, hheld,
    Outcome.mem_toOption_iff.mp hread, q, Outcome.mem_toOption_iff.mp hq,
    missingFact?_eq_some_iff.mp hmissing⟩

end Factbase
