import Factbase.Proofs.Query.Programs
import Factbase.Query.Results

/-!
# Executed queries do not go wrong

Executing a query that compiles gives results of their types, or fails
for one of few reasons (`CompiledQuery.Excuse`). Before and while the
program runs these are the reasons that the plan has. Of the values that
are yielded, those that stand for facts are read again and written: here
a reference may turn out not to be readable as what the result stands
for. Writing itself adds no reason, since all values are of their types
(`Ty.encodeJson_failsOnly`).
-/

namespace Factbase

/-! ## Writing values -/

section Writing

variable {τ α β : Type} {E : Error → Prop}

/-- From every state, a computation fails only as `E` says. -/
def FailsOnly (E : Error → Prop) (m : StateT τ (Except Error) α) : Prop :=
  ∀ s, Yields E (fun _ => True) (m.run s)

namespace FailsOnly

theorem pure (a : α) : FailsOnly E (pure a : StateT τ (Except Error) α) := fun _ => trivial

theorem bind {m : StateT τ (Except Error) α} {f : α → StateT τ (Except Error) β}
    (hm : FailsOnly E m) (hf : ∀ a, FailsOnly E (f a)) : FailsOnly E (m >>= f) := by
  intro s
  rw [StateT.run_bind]
  exact (hm s).bind fun res _ => hf res.1 res.2

theorem get : FailsOnly E (get : StateT τ (Except Error) τ) := fun _ => trivial

theorem modify (f : τ → τ) : FailsOnly E (modify f : StateT τ (Except Error) PUnit) :=
  fun _ => trivial

/-- First a computation that has no state. -/
theorem bindLift {P : α → Prop} {x : Except Error α} {f : α → StateT τ (Except Error) β}
    (hx : Yields E P x) (hf : ∀ a, P a → FailsOnly E (f a)) :
    FailsOnly E (do f (← x)) := by
  intro s
  cases x with
  | error e => exact hx
  | ok a => exact hf a hx s

end FailsOnly

namespace Ty

variable {write : WriteReference τ} {path : List String}

theorem encodeItems_failsOnly {elem : Ty} {vs : List Value}
    (h : ∀ v ∈ vs, FailsOnly E (encodeJson write path elem v)) :
    FailsOnly E (encodeItems write path elem vs) := by
  induction vs with
  | nil =>
      rw [encodeItems]
      exact .pure []
  | cons v vs ih =>
      obtain ⟨hv, hvs⟩ := List.forall_mem_cons.mp h
      rw [encodeItems]
      exact hv.bind fun j => (ih hvs).bind fun js => .pure (j :: js)

theorem encodeFields_failsOnly {fields : List Field} {vs : List Value}
    (h : List.Forall₂ (fun (f : Field) v => FailsOnly E (encodeJson write (path ++ [f.name]) f.ty v))
      fields vs) :
    FailsOnly E (encodeFields write path fields vs) := by
  induction h with
  | nil =>
      rw [encodeFields]
      · exact .pure []
      · intro _ _ _ _ heq
        cases heq
  | cons hf _ ih =>
      rw [encodeFields]
      exact hf.bind fun j => ih.bind fun members => .pure _

/-- A value of a type can be written where the references in it can. -/
theorem encodeJson_failsOnly (hwrite : ∀ id p path, FailsOnly E (write id p path)) {ty : Ty}
    {v : Value} (hv : ty.Conforms v) (path : List String) :
    FailsOnly E (ty.encodeJson write path v) := by
  induction ty using inductOn generalizing v path with
  | byte =>
      obtain ⟨n, rfl⟩ := conforms_byte_iff.mp hv
      exact .pure _
  | nat =>
      obtain ⟨n, rfl⟩ := conforms_nat_iff.mp hv
      exact .pure _
  | bool =>
      obtain ⟨b, rfl⟩ := conforms_bool_iff.mp hv
      exact .pure _
  | string =>
      obtain ⟨s, rfl⟩ := conforms_string_iff.mp hv
      exact .pure _
  | predicate p =>
      obtain ⟨id, rfl⟩ := conforms_predicate_iff.mp hv
      exact hwrite id p path
  | array elem ih =>
      obtain ⟨vs, rfl, hvs⟩ := conforms_array_iff.mp hv
      rw [encodeJson]
      exact (encodeItems_failsOnly fun w hw => ih (hvs w hw) path).bind fun js => .pure _
  | record fields ih =>
      obtain ⟨vs, rfl, hvs⟩ := conforms_record_iff.mp hv
      rw [encodeJson, if_pos hvs.length_eq]
      refine (encodeFields_failsOnly ?_).bind fun members => .pure _
      refine List.forall₂_iff_zip.mpr ⟨hvs.length_eq, fun {f w} hfw => ?_⟩
      exact ih f (List.of_mem_zip hfw).1 ((List.forall₂_iff_zip.mp hvs).2 hfw) _
  | sum alts ih =>
      obtain ⟨i, w, rfl, alt, halt, hw⟩ := conforms_sum_iff.mp hv
      rw [encodeJson, halt]
      exact (ih alt (List.mem_of_getElem? halt) hw _).bind fun j => .pure _

end Ty

/-! ## Rendering -/

namespace Rendering

variable {r : Rendering} {f : Fact} {ancestors : List FactId}

/-- A fact that fits the schema can be written where the references in it can. -/
theorem factJson_failsOnly {write : WriteReference Followed}
    (hwrite : ∀ id p path, FailsOnly E (write id p path)) (hf : r.schema.Fits f)
    (path : List String) : FailsOnly E (r.factJson write path f) := by
  obtain ⟨d, hd, hkey, hvalue⟩ := hf
  unfold factJson
  rw [hd]
  refine (Ty.encodeJson_failsOnly hwrite hkey path).bind fun key => ?_
  unfold Fact.value?
  split
  · exact .pure _
  · rename_i v heq
    split at heq
    · cases heq
    · cases heq
      exact (Ty.encodeJson_failsOnly hwrite hvalue _).bind fun value => .pure _

/-- A reference can be written where facts can be read. -/
theorem writeReference_failsOnly (hread : Look.Safe E r.schema r.read) (depth : Nat)
    (id : FactId) (p : Predicate) (path : List String) :
    FailsOnly E (r.writeReference depth ancestors id p path) := by
  induction depth generalizing ancestors id p path with
  | zero => exact .pure _
  | succ depth ih =>
      unfold writeReference
      split
      · exact .pure _
      · refine FailsOnly.get.bind fun followed => ?_
        split
        · exact .pure _
        · refine (FailsOnly.modify _).bind fun _ => ?_
          refine FailsOnly.bindLift (hread id p) fun found hfound => ?_
          cases found with
          | none => exact .pure _
          | some f => exact factJson_failsOnly (fun id p path => ih id p path) (hfound f rfl).2 path

/-- The rendering of a fact that fits the schema. -/
theorem fact_yields (hread : Look.Safe E r.schema r.read) (hf : r.schema.Fits f) :
    Yields E (fun _ => True) (r.fact f) :=
  (factJson_failsOnly (writeReference_failsOnly hread _) hf [] []).map fun _ _ => trivial

/-- The rendering of a value of a type. -/
theorem value_yields (hread : Look.Safe E r.schema r.read) {ty : Ty} {v : Value}
    (hv : ty.Conforms v) : Yields E (fun _ => True) (r.value ty v) :=
  (Ty.encodeJson_failsOnly (writeReference_failsOnly hread _) hv [] []).bind fun _ _ => trivial

end Rendering

end Writing

/-! ## Results -/

/-- A plan cites a fact if a stage of it is just that fact. -/
def Plan.Cites (p : Plan) (id : FactId) : Prop :=
  (∃ s ∈ p.main.stages, s.supply = .factId id.number) ∨
  ∃ q b, p.derived.get? q = some b ∧ ∃ s ∈ b.stages, s.supply = .factId id.number

theorem Plan.names_cites (p : Plan) : p.Names p.Cites :=
  ⟨fun s hs _ hn => .inl ⟨s, hs, hn⟩, fun q b hb s hs _ hn => .inr ⟨q, b, hb, s, hs, hn⟩⟩

variable {σ : Type} [FactStore σ]

/-- A reference that cannot be read as what it stands for in a result. -/
def Outcome.Unread (r : Reading σ) (o : Outcome) (id : FactId) : Prop :=
  match o with
  | .fact p => ∀ f, FactStore.lookup r.store id = some f → r.readable f.predicate p = false
  | .anyFact => FactStore.lookup r.store id = none
  | .value _ => False

/-- A result that is a fact of a predicate, with key and value as its definition has them. -/
def Binding.IsFact (b : Binding) (s : Schema) (p : Predicate) : Prop :=
  b.predicate = some p ∧ ∃ id, b.id = some id ∧ s.Fits ⟨id, p, b.key, b.value.getD .unit⟩

namespace CompiledQuery

/-- Why a query may fail: for a reason that its plan has, or because a reference that it
yields cannot be read. -/
inductive Excuse (q : CompiledQuery) (r : Reading σ) : Error → Prop
  | plan {e : Error} : r.Excuse q.plan.Cites e → q.Excuse r e
  | unread {id : FactId} : q.plan.main.outcome.Unread r id → q.Excuse r (.notFound (.fact id))

/-- The kind of result that a query yields, with key and value of their types. -/
def Fits (q : CompiledQuery) (b : Binding) : Prop :=
  match q.plan.main.outcome with
  | .fact p => b.IsFact q.schema p
  | .anyFact => ∃ p, b.IsFact q.schema p
  | .value ty => b.id = none ∧ b.predicate = none ∧ ty.Conforms b.key ∧ b.value = none

end CompiledQuery

section Results

variable [LawfulFactStore σ] {met : Content → Prop} {r : Reading σ} {log : List Fact} {w : World}

namespace Reading.Over

/-- A reference to what is not there, or is a fact of another predicate. -/
theorem unread_of_read (h : r.Over met log) (hw : w.Good r) {id : FactId} {p : Predicate}
    (hread : r.read w.overlay id p = .ok none) : (Outcome.fact p).Unread r id := by
  intro f hlookup
  obtain ⟨hf, rfl⟩ := h.on.lookup_iff.mp hlookup
  unfold read at hread
  rw [h.on.overlay_none hw.clear hf, hlookup] at hread
  dsimp only at hread
  split at hread
  · obtain ⟨g, -, hnone⟩ := Outcome.map_ok_iff.mp hread
    cases hnone
  · exact eq_false_of_ne_true ‹_›

theorem unread_of_readAny (h : r.Over met log) (hw : w.Good r) {id : FactId}
    (hread : r.readAny w.overlay id = .ok none) : Outcome.anyFact.Unread r id := by
  refine Option.eq_none_iff_forall_ne_some.mpr fun f hlookup => ?_
  obtain ⟨hf, rfl⟩ := h.on.lookup_iff.mp hlookup
  unfold readAny at hread
  rw [h.on.overlay_none hw.clear hf, hlookup] at hread
  obtain ⟨g, -, hnone⟩ := Outcome.map_ok_iff.mp hread
  cases hnone

end Reading.Over

namespace CompiledQuery

variable {q : CompiledQuery}

/-- What is found for a value of the kind that a query yields. -/
def Found (q : CompiledQuery) (v : Value) (found : Option Fact) : Prop :=
  match q.plan.main.outcome with
  | .fact p => ∃ f, found = some f ∧ f.predicate = p ∧ q.schema.Fits f
  | .anyFact => ∃ f, found = some f ∧ q.schema.Fits f
  | .value ty => found = none ∧ ty.Conforms v

omit [LawfulFactStore σ] in
theorem found_yields {P : Fact → Prop} {x : Except Error (Option Fact)} {id : FactId}
    (hx : Attempt.Yields r.Unbridged P x) (hunread : x = .ok none → q.plan.main.outcome.Unread r id) :
    Yields (q.Excuse r) (fun found => ∃ f, found = some f ∧ P f)
      (do let f ← x; if f.isSome then .ok f else .error (.notFound (.fact id))) := by
  unfold Attempt.Yields at hx
  cases x with
  | error e => exact .plan (.unbridged hx)
  | ok found =>
      cases found with
      | none => exact .unread (hunread rfl)
      | some f => exact ⟨f, rfl, hx f rfl⟩

theorem factOf_yields (h : r.Over met log) (hw : w.Good r) (hschema : r.target = q.schema)
    {v : Value} (hv : q.plan.main.outcome.Holds v) :
    Yields (q.Excuse r) (q.Found v) (q.factOf r w.overlay v) := by
  unfold factOf
  cases hout : q.plan.main.outcome with
  | fact p =>
      rw [hout] at hv
      obtain ⟨id, rfl⟩ := hv
      refine (found_yields (h.read_yields hw id p) fun hread => ?_).imp (fun _ he => he) ?_
      · rw [hout]
        exact h.unread_of_read hw hread
      · rintro found ⟨f, rfl, -, hp, hfit⟩
        rw [Found, hout]
        exact ⟨f, rfl, hp, hschema ▸ hfit⟩
  | anyFact =>
      rw [hout] at hv
      obtain ⟨id, rfl⟩ := hv
      refine (found_yields (h.readAny_yields hw id) fun hread => ?_).imp (fun _ he => he) ?_
      · rw [hout]
        exact h.unread_of_readAny hw hread
      · rintro found ⟨f, rfl, -, hfit⟩
        rw [Found, hout]
        exact ⟨f, rfl, hschema ▸ hfit⟩
  | value ty =>
      rw [hout] at hv
      show q.Found v none
      rw [Found, hout]
      exact ⟨rfl, hv⟩

/-- A result for a value is what the query yields. -/
theorem binding_yields (h : r.Over met log) (hw : w.Good r) (hschema : r.target = q.schema)
    (policy : ExpandPolicy) {v : Value} (hv : q.plan.main.outcome.Holds v) :
    Yields (q.Excuse r) q.Fits (q.binding r w.overlay policy v) := by
  have hread : Look.Safe (q.Excuse r) q.schema (r.read w.overlay) := fun id p =>
    (hschema ▸ h.look_safe hw id p).imp (fun _ => .plan) fun _ hfound => hfound
  let rendering : Rendering := ⟨r.read w.overlay, q.schema, policy, q.plan.main.noExpand⟩
  have hfact {f : Fact} (hfit : q.schema.Fits f) :
      Yields (q.Excuse r) (fun b : Binding => b.IsFact q.schema f.predicate) (do
        return ⟨some f.id, some f.predicate, f.key, f.value?, ← rendering.fact f⟩) := by
    refine (Rendering.fact_yields (r := rendering) hread hfit).bind fun json _ => ?_
    exact ⟨rfl, f.id, rfl, by rwa [Fact.value?_getD]⟩
  refine (factOf_yields h hw hschema hv).bind fun found hfound => ?_
  unfold Found at hfound
  unfold Fits
  cases hout : q.plan.main.outcome with
  | fact p =>
      rw [hout] at hfound
      obtain ⟨f, rfl, rfl, hfit⟩ := hfound
      exact hfact hfit
  | anyFact =>
      rw [hout] at hfound
      obtain ⟨f, rfl, hfit⟩ := hfound
      exact (hfact hfit).imp (fun _ he => he) fun b hb => ⟨f.predicate, hb⟩
  | value ty =>
      rw [hout] at hfound
      obtain ⟨rfl, hty⟩ := hfound
      exact (Rendering.value_yields (r := rendering) hread hty).bind fun json _ =>
        ⟨rfl, rfl, hty, rfl⟩

end CompiledQuery

end Results

/-! ## Execution -/

/-- A run fails as the course that it tracks may, and keeps the derived facts good. -/
theorem Tracks.yields {α β : Type} {r : Reading σ} {P : α → β → Prop} {cut : α → Prop} {m : Run α}
    {s : Course β} {e : Evaluation} {E : Error → Prop} {R : β → World → Prop}
    (h : Tracks r P cut m s e) (hs : Course.Yields r E R s e.world)
    (hids : s.run e.world ≠ .error .outOfIds) :
    Yields E (fun res => res.2.world.Good r ∧ ((∃ b, P res.1 b) ∨ cut res.1)) (m.run e) := by
  unfold Tracks Course.Yields at *
  cases hrun : s.run e.world with
  | error x =>
      rw [hrun] at h hs
      cases x with
      | outOfIds => exact absurd hrun hids
      | failed x =>
          rcases h with hm | ⟨a, e', hm, hgood, hcut⟩
          · rw [hm]
            exact hs
          · rw [hm]
            exact ⟨hgood, .inr hcut⟩
  | ok res =>
      rw [hrun] at h
      obtain ⟨a, e', hm, hgood, ha⟩ := h
      rw [hm]
      exact ⟨hgood, ha.imp_left fun hP => ⟨res.1, hP.2⟩⟩

section Execution

variable [LawfulFactStore σ] {met : Content → Prop} {log : List Fact} {r : Reading σ}

/-- The program of a plan, with a limit or without, fails for a reason that the plan has, or
yields values of the kind that the plan has. -/
theorem Plan.run_yields (h : r.Over met log) (hfree : Collisionless met) {p : Plan}
    (hp : p.Typed r.target) (hids : p.meaning? r ≠ none) (limit : Option Nat)
    (profile : Option Profile) :
    Yields (r.Excuse p.Cites)
      (fun out => out.2.world.Good r ∧ ∀ v ∈ out.1.values, p.main.outcome.Holds v)
      ((p.compile.run r limit).run ⟨∅, ∅, FactStore.nextId r.store, 0, profile⟩) := by
  let start : Evaluation := ⟨∅, ∅, FactStore.nextId r.store, 0, profile⟩
  have hnamed := p.names_cites
  have htracks := p.tracks_compile h hfree hp hnamed limit (e := start) World.start_good
  have hmain := Body.meaning_yields h hp.main hnamed.1 (Bodies.derive_yields h hp.derived hnamed.2)
    World.start_good
  refine (htracks.yields hmain fun hrun => hids ?_).imp (fun _ he => he) ?_
  · rw [Plan.meaning?, show p.values r ⟨∅, ∅, FactStore.nextId r.store⟩ = _ from hrun]
  · rintro out ⟨hgood, ⟨values, hyielded, -⟩ | hcut⟩
    · exact ⟨hgood, hyielded.hold⟩
    · exact ⟨hgood, hcut.1.hold⟩

/-- Executing a query gives results of their types, or fails for a reason that there is. -/
theorem CompiledQuery.execute_yields {q : CompiledQuery} {store : σ} {stored : Schema}
    (h : Reading.Over met ⟨store, stored, q.schema, q.mode⟩ log) (hfree : Collisionless met)
    (hplan : q.plan.Typed q.schema) (hprogram : q.program = q.plan.compile)
    (hids : q.plan.meaning? ⟨store, stored, q.schema, q.mode⟩ ≠ none) (o : QueryOptions) :
    Yields (q.Excuse ⟨store, stored, q.schema, q.mode⟩)
      (fun results => ∀ b ∈ results.bindings, q.Fits b) (q.execute store stored o) := by
  have hprepare : Yields (q.Excuse ⟨store, stored, q.schema, q.mode⟩) (fun _ => True)
      (q.touches.forM (Reading.prepare ⟨store, stored, q.schema, q.mode⟩)) :=
    .forM fun p _ => (h.prepare_yields p).imp (fun _ he => .plan (.unbridged he)) fun _ hp => hp
  refine hprepare.bind fun _ _ => ?_
  rw [hprogram]
  have hrun := Plan.run_yields h hfree hplan hids o.limit (if o.profile then some .empty else none)
  refine (hrun.imp (fun _ => .plan) fun _ hout => hout).bind fun out hout => ?_
  obtain ⟨hgood, hall⟩ := hout
  exact (Yields.mapM fun v hv => binding_yields h hgood rfl o.expand (hall v hv)).bind
    fun bindings hbindings => hbindings

/-- A query that compiles does not go wrong, whatever the options. On a store that operations
led to, all of whose facts fit the schema they are stored under, it gives results of the types
that the schema of the query has, or fails for one of the reasons of `Excuse`. There must be
ids for the derived facts. -/
theorem CompiledQuery.execute_safe (met : Content → Prop) (hfree : Collisionless met)
    (hkeeps : ∀ c, met c → LawfulFactStore.Keeps σ c) (ops : List StoreOp)
    (hmet : ∀ op ∈ ops, ∀ c ∈ op.content?, met c)
    (hroom : FactStore.size ((.new : StoreSession σ).run ops).store < 2 ^ 64 - 1024)
    {stored target : Schema}
    (hfits : ∀ f ∈ FactStore.committed ((.new : StoreSession σ).run ops).store, stored.Fits f)
    (htarget : target.Registered) (hnarrow : target.Narrow) {mode : SchemaMode}
    (hmode : mode = .stored → target = stored) {text : String} {q : CompiledQuery}
    (hq : CompiledQuery.ofText text target mode = .ok q)
    (hids : q.plan.meaning? ⟨((.new : StoreSession σ).run ops).store, stored, target, mode⟩ ≠ none)
    (o : QueryOptions) :
    Yields (q.Excuse ⟨((.new : StoreSession σ).run ops).store, stored, target, mode⟩)
      (fun results => ∀ b ∈ results.bindings, q.Fits b)
      (q.execute ((.new : StoreSession σ).run ops).store stored o) := by
  have hover := StoreSession.reading_over met hfree hkeeps ops hmet hroom hfits htarget hnarrow hmode
  obtain ⟨query, -, hq⟩ := Outcome.bind_ok_iff.mp hq
  obtain ⟨plan, hplan, hq⟩ := Outcome.bind_ok_iff.mp hq
  obtain rfl := Except.ok.inj hq
  exact execute_yields hover hfree (query.typed_sound htarget.coherent hnarrow hplan) rfl hids o

end Execution

/-! ## A family that has changed -/

/-- The family, where it is known of parents whether they have adopted the child. -/
def grownDecl : SchemaDecl where
  name := "family"
  version := 2
  inherits := []
  imports := []
  items :=
    [.predicate "Person" .string none none,
      .predicate "Parent" (.record [⟨"child", .named "Person", none⟩,
        ⟨"parent", .named "Person", none⟩, ⟨"adopted", .bool, none⟩]) none none,
      .predicate "Elder" (.named "Person") none
        (some (.var "P", ⟨[⟨none, .predicate "Parent" none (some (.fields [("parent", .var "P")])) none⟩]⟩))]

def grownSchema : Schema := (familySchema.register grownDecl).toOption.getD .builtin

theorem grownSchema_registered : grownSchema.Registered := familySchema_registered.register_getD _

/-- The elders, for whom the facts about parents have to be converted. -/
def elderQuery : CompiledQuery :=
  (CompiledQuery.ofText "family.Elder" grownSchema .current).toOption.getD default

theorem elderQuery_compiles :
    CompiledQuery.ofText "family.Elder" grownSchema .current = .ok elderQuery :=
  Outcome.eq_ok_getD (by decide +kernel) _

theorem CompiledQuery.execute_safe_grownFamily :
    ∃ results, elderQuery.execute familyStore familySchema default = .ok results ∧
      results.bindings.length = 1 ∧ ∀ b ∈ results.bindings, elderQuery.Fits b := by
  have hclosed : (elderQuery.plan.meaning? ⟨familyStore, familySchema, grownSchema, .current⟩).isSome ∧
      (elderQuery.execute familyStore familySchema default).toOption.any
        (·.bindings.length = 1) = true := by
    decide +kernel
  obtain ⟨hids, hrun⟩ := hclosed
  have hsafe : Yields (elderQuery.Excuse ⟨familyStore, familySchema, grownSchema, .current⟩)
      (fun results => ∀ b ∈ results.bindings, elderQuery.Fits b)
      (elderQuery.execute familyStore familySchema default) :=
    execute_safe (· ∈ familyMet) familyMet_collisionless (fun _ _ => trivial) familyFacts
      (fun op hop c hc => List.mem_filterMap.mpr ⟨op, hop, hc⟩) (by decide +kernel) familyStore_fits
      grownSchema_registered (by unfold Schema.Narrow; decide +kernel)
      (fun hmode : SchemaMode.current = .stored => nomatch hmode) elderQuery_compiles
      (Option.isSome_iff_ne_none.mp hids) default
  cases h : elderQuery.execute familyStore familySchema default with
  | error e =>
      rw [h] at hrun
      cases hrun
  | ok results =>
      rw [h] at hrun hsafe
      exact ⟨results, rfl, of_decide_eq_true hrun, hsafe⟩

end Factbase
