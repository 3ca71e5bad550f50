import Factbase.Proofs.Query.Growth
import Factbase.Proofs.Query.Limits
import Factbase.Proofs.Query.Rendering
import Factbase.Query.Results

/-!
# Adding facts loses no results

Once facts have been added, a query in stored mode that uses no derived
predicate yields what it yielded before, and perhaps more
(`CompiledQuery.execute_monotone`). A value that was yielded is yielded
again (`Stage.Reaches.grows`). It refers only to facts that were there, so
nothing that was missing in its result is filled in when it is written
again (`CompiledQuery.binding_grows`).
-/

namespace Factbase

variable {σ : Type} [FactStore σ]

open FactStore (Covers Grown)
open Attempt (Carries)

variable {s : σ} {r r' : Reading σ}

/-! ## Results -/

/-- A fact of the store refers only to facts of the store. -/
theorem Reading.Grows.within (h : r.Grows r') {id : FactId} {f : Fact}
    (hf : FactStore.lookup r.store id = some f) (schema : Schema) :
    Rendering.Within (fun _ id => (FactStore.lookup r.store id).isSome) schema f := by
  obtain ⟨-, hkey, hvalue⟩ := h.store.facts id f hf
  exact fun d _ => ⟨fun e he => hkey e.2 (Ty.mem_positions he).2,
    fun e he => hvalue e.2 (Ty.mem_positions he).2⟩

/-- References to facts of the store are read alike. -/
theorem Reading.Grows.alike (h : r.Grows r') (schema : Schema) (policy : ExpandPolicy)
    (noExpand : SortedSet (List String)) :
    Rendering.Alike (fun _ id => (FactStore.lookup r.store id).isSome)
      ⟨r.read ∅, schema, policy, noExpand⟩ ⟨r'.read ∅, schema, policy, noExpand⟩ where
  schema := rfl
  policy := rfl
  noExpand := rfl
  read p id hid := by
    show r'.read ∅ id p = r.read ∅ id p
    rw [read_stored h.mode, read_stored h.mode', h.store.lookup_eq hid]
  found p id f _ hf := h.within ((read_stored_iff h.mode).mp hf).1 schema

namespace CompiledQuery

variable {q : CompiledQuery} {v : Value}

omit [FactStore σ] in
theorem found_carries {P : Fact → Prop} {x x' : Except Error (Option Fact)} {id : FactId}
    {found : Option Fact} (hx : Carries P x x')
    (h : (do let f ← x; if f.isSome then .ok f else .error (.notFound (.fact id))) = .ok found) :
    (do let f ← x'; if f.isSome then .ok f else .error (.notFound (.fact id))) = .ok found ∧
      ∀ f ∈ found, P f := by
  obtain ⟨y, hy, h⟩ := Outcome.bind_ok_iff.mp h
  cases y with
  | none => cases h
  | some f =>
      obtain rfl := Except.ok.inj h
      obtain ⟨hy', hf⟩ := hx f hy
      refine ⟨Outcome.bind_ok_iff.mpr ⟨some f, hy', rfl⟩, ?_⟩
      rintro _ ⟨⟩
      exact hf

/-- A fact that a value stands for is found as well once the store has grown. -/
theorem factOf_grows (h : r.Grows r') {found : Option Fact} (hfound : q.factOf r ∅ v = .ok found) :
    q.factOf r' ∅ v = .ok found ∧ ∀ f ∈ found, FactStore.lookup r.store f.id = some f := by
  unfold factOf at hfound ⊢
  split at hfound
  · exact found_carries (h.read_carries _ _) hfound
  · exact found_carries (h.readAny_carries _) hfound
  · cases hfound
    exact ⟨rfl, fun _ hf => nomatch hf⟩

/-- A value gives the same result once the store has grown. -/
theorem binding_grows (h : r.Grows r') {policy : ExpandPolicy} (hv : Covers r.store v) {b : Binding}
    (hb : q.binding r ∅ policy v = .ok b) : q.binding r' ∅ policy v = .ok b := by
  have halike := h.alike q.schema policy q.plan.main.noExpand
  obtain ⟨found, hfound, hb⟩ := Outcome.bind_ok_iff.mp hb
  obtain ⟨hfound', hheld⟩ := factOf_grows h hfound
  refine Outcome.bind_ok_iff.mpr ⟨found, hfound', ?_⟩
  cases found with
  | none =>
      cases hout : q.plan.main.outcome with
      | value ty =>
          rw [hout] at hb
          dsimp only at hb ⊢
          rwa [halike.value fun e he => hv e.2 (Ty.mem_positions he).2]
      | fact p =>
          rw [hout] at hb
          cases hb
      | anyFact =>
          rw [hout] at hb
          cases hb
  | some f =>
      dsimp only at hb ⊢
      rwa [halike.fact (h.within (hheld f rfl) q.schema)]

/-- A query no stage of which draws from a derived predicate. -/
def IsStored (q : CompiledQuery) : Prop := ∀ s ∈ q.plan.main.stages, s.supply.IsStored

instance : Decidable q.IsStored := inferInstanceAs (Decidable (∀ s ∈ q.plan.main.stages, s.supply.IsStored))

/-- Without a limit a query gives a result for each value that its stages lead to. -/
theorem execute_reaches [LawfulFactStore σ] {met : Content → Prop} {log : List Fact} {store : σ}
    (h : Reading.Over met ⟨store, q.schema, q.schema, q.mode⟩ log) (hfree : Collisionless met)
    (hplan : q.plan.Typed q.schema) (hprogram : q.program = q.plan.compile) (hstored : q.IsStored)
    {o : QueryOptions} (hlimit : o.limit = none) {results : QueryResults}
    (hresults : q.execute store q.schema o = .ok results) :
    ∃ values : List Value, (∀ v, v ∈ values ↔
        Stage.Reaches ⟨store, q.schema, q.schema, q.mode⟩ q.plan.main.stages .empty v) ∧
      List.Forall₂ (fun v b => q.binding ⟨store, q.schema, q.schema, q.mode⟩ ∅ o.expand v = .ok b)
        values results.bindings := by
  obtain ⟨_, -, hresults⟩ := Outcome.bind_ok_iff.mp hresults
  obtain ⟨⟨sink, e⟩, hrun, hresults⟩ := Outcome.bind_ok_iff.mp hresults
  obtain ⟨bindings, hbindings, hresults⟩ := Outcome.bind_ok_iff.mp hresults
  obtain rfl := Except.ok.inj hresults
  rw [hprogram, hlimit] at hrun
  obtain ⟨hoverlay, hvalues⟩ := Plan.run_reaches h hfree hplan hstored hrun
  replace hoverlay : e.overlay = ∅ := hoverlay
  rw [hoverlay] at hbindings
  exact ⟨sink.values, hvalues, Outcome.mapM_ok_iff.mp hbindings⟩

/-- What a query yields, it yields as well once the store has grown. -/
theorem execute_grows [LawfulFactStore σ] {met : Content → Prop} {log log' : List Fact}
    (hfree : Collisionless met) {store store' : σ} (hgrown : Grown store store')
    (hmode : q.mode = .stored) (h : Reading.Over met ⟨store, q.schema, q.schema, q.mode⟩ log)
    (h' : Reading.Over met ⟨store', q.schema, q.schema, q.mode⟩ log') (hplan : q.plan.Typed q.schema)
    (hprogram : q.program = q.plan.compile) (hstored : q.IsStored) {o : QueryOptions}
    (hlimit : o.limit = none) {results results' : QueryResults}
    (hresults : q.execute store q.schema o = .ok results)
    (hresults' : q.execute store' q.schema o = .ok results') :
    results.bindings ⊆ results'.bindings := by
  have hgrows : Reading.Grows ⟨store, q.schema, q.schema, q.mode⟩ ⟨store', q.schema, q.schema, q.mode⟩ :=
    ⟨hmode, hmode, hgrown⟩
  obtain ⟨values, hvalues, hbindings⟩ := execute_reaches h hfree hplan hprogram hstored hlimit hresults
  obtain ⟨values', hvalues', hbindings'⟩ := execute_reaches h' hfree hplan hprogram hstored hlimit hresults'
  intro b hb
  -- The value of a result is reached again, at whatever place it then has.
  obtain ⟨i, hi⟩ := List.mem_iff_getElem?.mp hb
  obtain ⟨v, hv, hvb⟩ := forall₂_getElem? hbindings.flip hi
  obtain ⟨hreach, hcovers⟩ := Stage.Reaches.grows hgrows hplan.main hstored Env.Covered.empty
    ((hvalues v).mp (List.mem_of_getElem? hv))
  obtain ⟨j, hj⟩ := List.mem_iff_getElem?.mp ((hvalues' v).mpr hreach)
  obtain ⟨b', hb', hvb'⟩ := forall₂_getElem? hbindings' hj
  obtain rfl := Except.ok.inj ((binding_grows hgrows hcovers hvb).symm.trans hvb')
  exact List.mem_of_getElem? hb'

/-- Adding facts loses no results: whatever a query in stored mode that uses no derived predicate
yields on a store that operations led to, with its id, key, value and rendering, it yields as well
after more operations, in whatever order the results then come. -/
theorem execute_monotone [LawfulFactStore σ] (met : Content → Prop) (hfree : Collisionless met)
    (hkeeps : ∀ c, met c → LawfulFactStore.Keeps σ c) (ops more : List StoreOp)
    (hmet : ∀ op ∈ ops ++ more, ∀ c ∈ op.content?, met c)
    (hroom : FactStore.size ((.new : StoreSession σ).run (ops ++ more)).store < 2 ^ 64 - 1024)
    {schema : Schema} (hschema : schema.Registered) (hnarrow : schema.Narrow)
    (hfits : ∀ f ∈ FactStore.committed ((.new : StoreSession σ).run (ops ++ more)).store, schema.Fits f)
    {text : String} (hq : CompiledQuery.ofText text schema .stored = .ok q) (hstored : q.IsStored)
    {o : QueryOptions} (hlimit : o.limit = none) {results results' : QueryResults}
    (hresults : q.execute ((.new : StoreSession σ).run ops).store schema o = .ok results)
    (hresults' : q.execute ((.new : StoreSession σ).run (ops ++ more)).store schema o = .ok results') :
    ∀ b ∈ results.bindings, b ∈ results'.bindings := by
  obtain ⟨hroom', hgrown⟩ := StoreSession.grown_run met hfree hkeeps ops more hmet hroom
  have hover := StoreSession.reading_over met hfree hkeeps ops
    (fun op hop => hmet op (List.mem_append_left _ hop)) hroom'
    (fun f hf => hfits f (hgrown.committed_subset hf)) hschema hnarrow fun _ : SchemaMode.stored = _ => rfl
  have hover' := StoreSession.reading_over met hfree hkeeps (ops ++ more) hmet hroom hfits hschema hnarrow
    fun _ : SchemaMode.stored = _ => rfl
  obtain ⟨query, -, hq⟩ := Outcome.bind_ok_iff.mp hq
  obtain ⟨plan, hplan, hq⟩ := Outcome.bind_ok_iff.mp hq
  obtain rfl := Except.ok.inj hq
  exact execute_grows hfree hgrown rfl hover hover' (query.typed_sound hschema.coherent hnarrow hplan)
    rfl hstored hlimit hresults hresults'

end CompiledQuery

/-! ## A second reading -/

def firstReading : List StoreOp :=
  [.insert ⟨"weather.Station", 1⟩ (.string "Oslo") .unit,
    .insert ⟨"weather.Reading", 1⟩ (.fact ⟨1024⟩) (.nat 3)]

def secondReading : List StoreOp :=
  [.insert ⟨"weather.Reading", 1⟩ (.fact ⟨1024⟩) (.nat 5), .setState .complete]

/-- The contents that both bring. -/
def readingsMet : List Content := (firstReading ++ secondReading).filterMap StoreOp.content?

theorem readingsMet_collisionless : Collisionless (· ∈ readingsMet) :=
  .of_list (by decide +kernel) (by decide +kernel)

def stationStore (ops : List StoreOp) : MemoryStore := ((.new : StoreSession MemoryStore).run ops).store

/-- The readings of a station that share their key with a reading. -/
def osloQuery : CompiledQuery :=
  (CompiledQuery.ofText "weather.Station \"Oslo\"; $1025" weatherSchema .stored).toOption.getD default

/-- What is told by evaluation, in one go as the schema, the query and the stores are shared. -/
theorem readings_evaluated :
    (CompiledQuery.ofText "weather.Station \"Oslo\"; $1025" weatherSchema .stored).toOption.isSome = true ∧
    (∀ f ∈ FactStore.committed (stationStore (firstReading ++ secondReading)),
      ∃ d ∈ weatherSchema.predicates.values,
        weatherSchema.get? f.predicate = some d ∧ d.key.Conforms f.key ∧ d.value.Conforms f.value) ∧
    (osloQuery.execute (stationStore firstReading) weatherSchema default).toOption.any
      (·.bindings.length = 1) = true ∧
    (osloQuery.execute (stationStore (firstReading ++ secondReading)) weatherSchema
      default).toOption.any (·.bindings.length = 2) = true := by
  decide +kernel

theorem osloQuery_compiles :
    CompiledQuery.ofText "weather.Station \"Oslo\"; $1025" weatherSchema .stored = .ok osloQuery :=
  Outcome.eq_ok_getD readings_evaluated.1 _

theorem stationStore_fits : ∀ f ∈ FactStore.committed (stationStore (firstReading ++ secondReading)),
    weatherSchema.Fits f :=
  fun f hf => (readings_evaluated.2.1 f hf).imp fun _ => And.right

theorem CompiledQuery.execute_monotone_readings :
    ∃ one two, osloQuery.execute (stationStore firstReading) weatherSchema default = .ok one ∧
      osloQuery.execute (stationStore (firstReading ++ secondReading)) weatherSchema default = .ok two ∧
      one.bindings.length = 1 ∧ two.bindings.length = 2 ∧ ∀ b ∈ one.bindings, b ∈ two.bindings := by
  obtain ⟨-, -, hone, htwo⟩ := readings_evaluated
  obtain ⟨one, hone, hlen⟩ := (Option.any_eq_true _ _).mp hone
  obtain ⟨two, htwo, hlen'⟩ := (Option.any_eq_true _ _).mp htwo
  have hone := Outcome.mem_toOption_iff.mp hone
  have htwo := Outcome.mem_toOption_iff.mp htwo
  exact ⟨one, two, hone, htwo, of_decide_eq_true hlen, of_decide_eq_true hlen',
    execute_monotone (· ∈ readingsMet) readingsMet_collisionless (fun _ _ => trivial) firstReading
      secondReading (fun op hop c hc => List.mem_filterMap.mpr ⟨op, hop, hc⟩) (by decide +kernel)
      (Schema.Registered.builtin.register_getD _) (by unfold Schema.Narrow; decide +kernel)
      stationStore_fits osloQuery_compiles (by decide +kernel) rfl hone htwo⟩

end Factbase
