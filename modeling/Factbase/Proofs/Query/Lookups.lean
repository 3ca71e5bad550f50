import Factbase.Proofs.Query.Limits
import Factbase.Proofs.Store.Digests

/-!
# Lookups by key

A scan goes through the stored facts that are read as facts of a
predicate, and a search by key through some of them. Each of the stored
predicates that are read so is served by itself: by its key index, if keys
are not converted, and by all its facts otherwise. The ids found are put in
order (`Reading.On.sortIds_flatMap`), so a scan gives each fact once, and
what a search leaves out does not have the key.

Nothing is assumed of the two schemas but that conversions between them
could be prepared. Of digests it is assumed that the one sought is not that
of a stored fact of another predicate: such a fact would come twice.
-/

namespace Factbase

variable {σ : Type} [FactStore σ]

/-! ## Evaluations of a run -/

/-- The derived facts of an evaluation are clear of those of a store. -/
def Evaluation.Clear (store : σ) (e : Evaluation) : Prop := e.world.Clear store

namespace Evaluation

variable {store : σ} {e e' : Evaluation}

theorem Clear.world (h : e.Clear store) (hworld : e'.world = e.world) : e'.Clear store := by
  rw [Clear, hworld]
  exact h

/-- At the start of a run there are no derived facts. -/
theorem clear_start (store : σ) (searched : Nat) (profile : Option Profile) :
    Clear store ⟨∅, ∅, FactStore.nextId store, searched, profile⟩ :=
  ⟨fun _ _ h => (by cases h), UInt64.le_refl _⟩

end Evaluation

open Evaluation Outcome

variable {r : Reading σ} {derive : Predicate → Run (List FactId)}

section Runs

variable {I : Evaluation → Prop}

theorem visitAll_preserves {α : Type} {step : α → Sink → Run Sink} {xs : List α}
    (h : ∀ x ∈ xs, ∀ sink, Preserves I (step x sink)) (sink : Sink) :
    Preserves I (visitAll step xs sink) := by
  induction xs generalizing sink with
  | nil => exact .pure
  | cons x xs ih =>
      obtain ⟨hx, hxs⟩ := List.forall_mem_cons.mp h
      rw [visitAll]
      refine (hx sink).bind fun sink' => ?_
      split
      · exact .pure
      · exact ih hxs sink'

/-- Steps that agree, as long as something holds of the evaluation, are one loop. -/
theorem run_visitAll_congr {α : Type} {step step' : α → Sink → Run Sink} {xs : List α}
    (h : ∀ x ∈ xs, ∀ sink e, I e → (step x sink).run e = (step' x sink).run e)
    (hkeep : ∀ x ∈ xs, ∀ sink, Preserves I (step' x sink)) (sink : Sink) {e : Evaluation} (he : I e) :
    (visitAll step xs sink).run e = (visitAll step' xs sink).run e := by
  induction xs generalizing sink e with
  | nil => rfl
  | cons x xs ih =>
      obtain ⟨hx, hxs⟩ := List.forall_mem_cons.mp h
      obtain ⟨hkx, hkxs⟩ := List.forall_mem_cons.mp hkeep
      rw [run_visitAll_cons, run_visitAll_cons, hx sink e he]
      cases hstep : (step' x sink).run e with
      | error x => rfl
      | ok p =>
          show (if p.1.truncated then _ else _) = (if p.1.truncated then _ else _)
          split
          · rfl
          · exact ih hxs hkxs p.1 (hkx sink e p.1 p.2 he hstep)

/-- Running code keeps what the derived facts that it demands are computed under. -/
theorem exec_preserves (hworld : ∀ e e' : Evaluation, e'.world = e.world → I e → I e')
    {code : List Instr} (hderive : ∀ i ∈ code, ∀ p ∈ i.demands, Preserves I (derive p)) (f : Frame)
    (sink : Sink) : Preserves I (exec r derive code f sink) := by
  induction code generalizing f sink with
  | nil =>
      rw [exec]
      exact .pure
  | cons i rest ih =>
      obtain ⟨hi, hrest⟩ := List.forall_mem_cons.mp hderive
      cases hend : i.isEnd with
      | false =>
          rw [exec_draws hend]
          intro e sink' e' he hrun
          obtain ⟨steps, e₁, hsteps, hrun⟩ := stateT_bind_ok_iff.mp hrun
          obtain ⟨hcounts, hdrawn⟩ := Instr.draws_cases hsteps
          have he₁ : I e₁ := by
            rcases hdrawn with ⟨-, rfl⟩ | ⟨p, dst, ids, rfl, hids⟩
            · exact he
            · exact hi p (List.mem_singleton_self p) e ids e₁ he hids
          refine visitAll_preserves (fun step hstep sink => ?_) sink e₁ sink' e' he₁ hrun
          intro e sink' e' he hrun
          obtain ⟨found, e₁, hfound, hrun⟩ := stateT_bind_ok_iff.mp hrun
          have he₁ := hworld e e₁ (hcounts step hstep e found e₁ hfound).1 he
          cases found with
          | none =>
              cases hrun
              exact he₁
          | some f => exact ih hrest f sink e₁ sink' e' he₁ hrun
      | true =>
          cases i with
          | barrier keep =>
              rw [exec_barrier]
              exact .pure
          | emit src =>
              rw [exec_emit]
              exact .pure
          | _ => cases hend

theorem runBlocks_preserves (hworld : ∀ e e' : Evaluation, e'.world = e.world → I e → I e')
    (limit : Option Nat) {blocks : List (List Instr)}
    (hderive : ∀ block ∈ blocks, ∀ i ∈ block, ∀ p ∈ i.demands, Preserves I (derive p))
    (frames : List Registers) : Preserves I (runBlocks r derive limit blocks frames) := by
  have hblock {block : List Instr} (hderive : ∀ i ∈ block, ∀ p ∈ i.demands, Preserves I (derive p))
      (limit : Option Nat) (frames : List Registers) : Preserves I (runBlock r derive limit block frames) :=
    visitAll_preserves (fun regs _ => exec_preserves hworld hderive (.ofRegisters regs)) (.empty limit)
  induction blocks generalizing frames with
  | nil =>
      rw [runBlocks]
      exact .pure
  | cons block blocks ih =>
      obtain ⟨hfirst, hrest⟩ := List.forall_mem_cons.mp hderive
      cases blocks with
      | nil =>
          rw [runBlocks]
          exact hblock hfirst limit frames
      | cons next blocks =>
          rw [runBlocks_cons (List.cons_ne_nil _ _)]
          exact (hblock hfirst none frames).bind fun sink => ih hrest sink.frames

end Runs

/-- Running code keeps derived facts clear of the store, as computing them does. -/
theorem exec_clear (hderive : ∀ p, Preserves (Clear r.store) (derive p)) (code : List Instr)
    (f : Frame) (sink : Sink) : Preserves (Clear r.store) (exec r derive code f sink) :=
  exec_preserves (fun _ _ hworld he => he.world hworld) (fun _ _ p _ => hderive p) f sink

theorem runBlocks_clear (hderive : ∀ p, Preserves (Clear r.store) (derive p)) (limit : Option Nat)
    (blocks : List (List Instr)) (frames : List Registers) :
    Preserves (Clear r.store) (runBlocks r derive limit blocks frames) :=
  runBlocks_preserves (fun _ _ hworld he => he.world hworld) limit (fun _ _ _ _ p _ => hderive p) frames

theorem addDerived_clear {store : σ} (p : Predicate) (key : Value) :
    Preserves (Clear store) (addDerived p key) := by
  intro e id e' he h
  cases h
  refine ⟨fun id f hf => ?_, UInt64.le_trans he.next (FactId.le_next e.next)⟩
  replace hf : (e.overlay.insert e.next ⟨e.next, p, key, .unit⟩).get? id = some f := hf
  rw [SortedMap.get?_insert] at hf
  split at hf
  · rename_i heq
    exact heq ▸ he.next
  · exact he.overlay id f hf

/-- Computing derived predicates keeps their facts clear of the store. -/
theorem deriveFacts_clear (r : Reading σ) (bodies : SortedMap Predicate Code) (fuel : Nat)
    (p : Predicate) : Preserves (Clear r.store) (deriveFacts r bodies fuel p) := by
  induction fuel generalizing p with
  | zero =>
      intro e ids e' he h
      obtain ⟨-, rfl⟩ | ⟨-, _, _, _, _, _, hfuel, -⟩ := deriveFacts_cases h
      · exact he
      · cases hfuel
  | succ fuel ih =>
      intro e ids e' he h
      obtain ⟨-, rfl⟩ | ⟨-, _, code, sink, e₁, e₂, hfuel, hrun, hids, rfl⟩ := deriveFacts_cases h
      · exact he
      · cases hfuel
        have he₁ := runBlocks_clear ih none code.blocks _ e sink e₁ he hrun
        have he₂ := Preserves.mapM (fun key => addDerived_clear p key) sink.values e₁ ids e₂ he₁ hids
        exact ⟨he₂.overlay, he₂.next⟩

/-! ## Handing on -/

namespace Reading

/-- Load a fact and run the rest of a block. -/
def handOn (r : Reading σ) (derive : Predicate → Run (List FactId)) (dst : Nat) (rest : List Instr)
    (f : Frame) (fact : Fact) (sink : Sink) : Run Sink := do
  examine fact.predicate
  exec r derive rest (f.load dst fact) sink

/-- Hand on a fact if it has a key. -/
def handOnIf (r : Reading σ) (derive : Predicate → Run (List FactId)) (key : Value) (dst : Nat)
    (rest : List Instr) (f : Frame) (fact : Fact) (sink : Sink) : Run Sink :=
  if fact.key = key then r.handOn derive dst rest f fact sink
  else do
    examine fact.predicate
    return sink

variable (hderive : ∀ p, Preserves (Clear r.store) (derive p))

include hderive

theorem handOn_clear (dst : Nat) (rest : List Instr) (f : Frame) (fact : Fact) (sink : Sink) :
    Preserves (Clear r.store) (r.handOn derive dst rest f fact sink) := by
  refine Preserves.bind (fun e _ e' he h => ?_) fun _ => exec_clear hderive rest _ sink
  cases h
  exact he.world rfl

theorem handOnIf_clear (key : Value) (dst : Nat) (rest : List Instr) (f : Frame) (fact : Fact)
    (sink : Sink) : Preserves (Clear r.store) (r.handOnIf derive key dst rest f fact sink) := by
  unfold handOnIf
  split
  · exact handOn_clear hderive dst rest f fact sink
  · refine Preserves.bind (fun e _ e' he h => ?_) fun _ => .pure
    cases h
    exact he.world rfl

end Reading

/-! ## Sources -/

/-- The predicates whose facts are read as facts of a predicate: just the predicate, or every
version of its name that is not above its own. -/
def SchemaMode.Admits (mode : SchemaMode) (source target : Predicate) : Prop :=
  match mode with
  | .stored => source = target
  | .current => source.name = target.name ∧ source.version ≤ target.version

instance SchemaMode.decidableAdmits (mode : SchemaMode) (source target : Predicate) :
    Decidable (mode.Admits source target) :=
  match mode with
  | .stored => inferInstanceAs (Decidable (source = target))
  | .current =>
      inferInstanceAs (Decidable (source.name = target.name ∧ source.version ≤ target.version))

omit [FactStore σ] in
theorem Reading.readable_eq (r : Reading σ) (p q : Predicate) :
    r.readable q p = decide (r.mode.Admits q p) := by
  rw [Bool.eq_iff_iff, decide_eq_true_iff]
  unfold readable SchemaMode.Admits
  cases r.mode <;> simp

variable [LawfulFactStore σ] {log : List Fact} {p : Predicate} {key : Value}

namespace Reading

/-- A stored fact as a fact of a predicate, where it can be read as one. -/
def converted (r : Reading σ) (p : Predicate) (f : Fact) : Fact := (r.convert f p).toOption.getD f

/-- Whether the facts of a stored predicate are read with the keys that they have. -/
def keepsKeys (r : Reading σ) (source target : Predicate) : Bool :=
  (r.conversion source target).toOption.any (·.key.isIdentity)

/-- Whether a search by a key finds a stored fact that is read as one of a predicate: its key is
converted, or the index has it under the key. -/
def finds (r : Reading σ) (p : Predicate) (key : Value) (f : Fact) : Bool :=
  !r.keepsKeys f.predicate p || keyDigest f.predicate f.key = keyDigest f.predicate key

/-- The digest that a key is sought by is that of no stored fact of another predicate. -/
def Unmistaken (r : Reading σ) (p : Predicate) (key : Value) : Prop :=
  ∀ f ∈ FactStore.committed r.store, ∀ q ∈ r.sources p,
    keyDigest f.predicate f.key = keyDigest q key → f.predicate = q

instance (r : Reading σ) (p : Predicate) (key : Value) : Decidable (r.Unmistaken p key) :=
  inferInstanceAs (Decidable (∀ _ ∈ _, ∀ _ ∈ _, _))

omit [FactStore σ] [LawfulFactStore σ] in
theorem conversion_of_prepare {sources : List Predicate}
    (h : (sources.forM fun q => discard (r.conversion q p)) = .ok ()) {q : Predicate}
    (hq : q ∈ sources) : ∃ c, r.conversion q p = .ok c := by
  induction sources with
  | nil => cases hq
  | cons q' sources ih =>
      obtain ⟨⟨⟩, hhere, hrest⟩ := bind_ok_iff.mp h
      rcases List.mem_cons.mp hq with rfl | hq
      · cases hc : r.conversion q p with
        | ok c => exact ⟨c, rfl⟩
        | error x =>
            dsimp only at hhere
            rw [hc] at hhere
            cases hhere
      · exact ih hrest hq

namespace On

variable (h : r.On log)

include h

/-- Where the sources can be read, what a scan gives is converted. -/
theorem convert_eq (hprepare : r.prepare p = .ok ()) {f : Fact} (hf : f ∈ log)
    (hp : r.readable f.predicate p = true) :
    r.convert f p = .ok (r.converted p f) ∧ (r.converted p f).id = f.id ∧
      (r.converted p f).predicate = p ∧
      (r.keepsKeys f.predicate p = true → (r.converted p f).key = f.key) := by
  obtain ⟨c, hc⟩ := conversion_of_prepare hprepare ((h.mem_sources_iff hf).mpr hp)
  obtain ⟨g, hg, hid, hpred, hkey⟩ := h.convert_ok hf hc
  have hconverted : r.converted p f = g := by
    rw [converted, hg]
    rfl
  have hkeeps : r.keepsKeys f.predicate p = c.key.isIdentity := by
    rw [keepsKeys, hc]
    rfl
  rw [hconverted, hkeeps]
  exact ⟨hg, hid, hpred, hkey⟩

/-- A search by key gives those that it finds of the facts that are read as facts of a
predicate. -/
theorem seek_eq (hprepare : r.prepare p = .ok ()) (hunmistaken : r.Unmistaken p key) :
    r.seek p key = .ok (((log.filter fun f => r.readable f.predicate p).filter
      (r.finds p key)).map (·.id)) := by
  rw [Unmistaken, committed_eq h.holds h.room] at hunmistaken
  have hfound : (r.sources p).mapM (fun q => do
      let c ← r.conversion q p
      return if c.key.isIdentity then FactStore.seek r.store q key else FactStore.scan r.store q) =
      (Except.ok ((r.sources p).map fun q => if r.keepsKeys q p then FactStore.seek r.store q key
        else FactStore.scan r.store q) : Except Error _) := by
    rw [mapM_ok_iff, List.forall₂_map_right_iff]
    refine List.forall₂_same.mpr fun q hq => ?_
    obtain ⟨c, hc⟩ := conversion_of_prepare hprepare hq
    rw [keepsKeys, hc]
    rfl
  rw [seek, hfound]
  refine congrArg Except.ok ?_
  rw [← List.flatMap_def, List.filter_filter]
  simp only [Bool.and_comm (r.finds p key _)]
  refine h.sortIds_flatMap fun q hq => ?_
  split
  · rename_i hkeeps
    rw [LawfulFactStore.seek_eq h.holds, FactIndex.seek_ofFacts]
    refine congrArg (List.map _) (List.filter_congr fun f hf => ?_)
    by_cases hpred : f.predicate = q
    · subst hpred
      simp [finds, hkeeps]
    · have hother : ¬ keyDigest f.predicate f.key = keyDigest q key :=
        fun hdigest => hpred (hunmistaken f hf q hq hdigest)
      simp [hpred, hother]
  · rename_i hkeeps
    rw [LawfulFactStore.scan_eq h.holds, FactIndex.scan_ofFacts]
    refine congrArg (List.map _) (List.filter_congr fun f _ => ?_)
    by_cases hpred : f.predicate = q
    · subst hpred
      simp [finds, hkeeps]
    · simp [hpred]

/-- What a scan gives is read, whatever facts are derived. -/
theorem read_converted {e : Evaluation} (he : e.Clear r.store) (hprepare : r.prepare p = .ok ())
    {f : Fact} (hf : f ∈ log) (hp : r.readable f.predicate p = true) :
    r.read e.overlay f.id p = .ok (some (r.converted p f)) := by
  refine (h.read_eq he hf p).trans ?_
  rw [if_pos hp, (h.convert_eq hprepare hf hp).1]
  rfl

end On

end Reading

/-! ## Instructions -/

namespace Reading

section Instructions

variable (h : r.On log) (hderive : ∀ p, Preserves (Clear r.store) (derive p))
variable (hprepare : r.prepare p = .ok ())

include h hderive hprepare

/-- A scan hands on the facts that are read as facts of the predicate. -/
theorem On.run_scan (dst : Nat) (rest : List Instr) (f : Frame) (sink : Sink)
    {e : Evaluation} (he : e.Clear r.store) :
    (exec r derive (.scan p dst :: rest) f sink).run e =
      (visitAll (r.handOn derive dst rest f)
        ((log.filter fun f => r.readable f.predicate p).map (r.converted p)) sink).run e := by
  rw [exec, h.scan_eq, visitAll_map, visitAll_map]
  refine run_visitAll_congr (I := Clear r.store) (fun x hx sink e he => ?_)
    (fun x _ sink => handOn_clear hderive dst rest f _ sink) sink he
  obtain ⟨hx, hp⟩ := List.mem_filter.mp hx
  show (visitRead (r.read · x.id p) (r.handOn derive dst rest f) sink).run e = _
  exact run_visitRead _ sink (h.read_converted he hprepare hx hp)

/-- A search by key looks at some of these facts and hands on those that have the key. All
others do not have it. -/
theorem On.run_seek (hunmistaken : r.Unmistaken p key) : ∃ looked : List Fact,
    looked.Sublist ((log.filter fun f => r.readable f.predicate p).map (r.converted p)) ∧
    looked.filter (·.key = key) =
      ((log.filter fun f => r.readable f.predicate p).map (r.converted p)).filter (·.key = key) ∧
    ∀ operand dst rest (f : Frame) sink e, operand.eval f.regs = key → Clear r.store e →
      (exec r derive (.seek p operand dst :: rest) f sink).run e =
        (visitAll (r.handOnIf derive key dst rest f) looked sink).run e := by
  refine ⟨((log.filter fun f => r.readable f.predicate p).filter (r.finds p key)).map
    (r.converted p), (List.filter_sublist ..).map _, ?_, fun operand dst rest f sink e hkey he => ?_⟩
  · rw [List.filter_map, List.filter_map, List.filter_filter]
    refine congrArg (List.map _) (List.filter_congr fun f hf => ?_)
    obtain ⟨hf, hp⟩ := List.mem_filter.mp hf
    obtain ⟨-, -, -, hkept⟩ := h.convert_eq hprepare hf hp
    -- a fact that is not found is read with the key that it has
    by_cases hfound : r.finds p key f = true
    · simp [hfound]
    · obtain ⟨hkeeps, hdigest⟩ : r.keepsKeys f.predicate p = true ∧
          ¬ keyDigest f.predicate f.key = keyDigest f.predicate key := by
        simpa [finds] using hfound
      have hne : ¬ (r.converted p f).key = key := fun heq =>
        hdigest (by rw [← heq, hkept hkeeps])
      simp [hne]
  · have hrun : exec r derive (.seek p operand dst :: rest) f sink = (do
        visitAll (fun id sink => visitRead (r.read · id p) (fun fact sink => do
          examine p
          if fact.key = key then exec r derive rest (f.load dst fact) sink else return sink) sink)
            (← (liftM (r.seek p key) : Run (List FactId))) sink) := by
      rw [exec, hkey]
      rfl
    rw [hrun, h.seek_eq hprepare hunmistaken]
    show (visitAll _ (List.map _ _) sink).run e = _
    rw [visitAll_map, visitAll_map]
    refine run_visitAll_congr (I := Clear r.store) (fun x hx sink e he => ?_)
      (fun x _ sink => handOnIf_clear hderive key dst rest f _ sink) sink he
    obtain ⟨hx, hp⟩ := List.mem_filter.mp (List.mem_filter.mp hx).1
    have hread := h.read_converted he hprepare hx hp
    obtain ⟨-, -, hpred, -⟩ := h.convert_eq hprepare hx hp
    refine (run_visitRead _ sink hread).trans ?_
    rw [handOnIf, handOn, hpred]
    split <;> rfl

end Instructions

/-- For every store that operations led to and whose facts fit the schema that they are stored
under, wherever the facts of a predicate can be read under another one: a scan hands on each
stored fact that is read as one of the predicate, converted, once and in the order of ids; and
a search by key hands on those of them whose converted key is the one sought, in the same order.
Some others it looks at, and does not hand on. This is so in every evaluation of a run: they start
clear of the store (`clear_start`) and stay so (`exec_clear`, `deriveFacts_clear`). -/
theorem seek_eq_filtered_scan (r : Reading σ) (ops : List StoreOp)
    (hkept : ∀ op ∈ ops, ∀ c ∈ op.content?, LawfulFactStore.Keeps σ c)
    (hstore : r.store = ((.new : StoreSession σ).run ops).store)
    (hroom : FactStore.size r.store < 2 ^ 64 - 1024)
    (hfits : ∀ f ∈ FactStore.committed r.store, r.stored.Fits f) (p : Predicate)
    (hprepare : r.prepare p = .ok ()) (bodies : SortedMap Predicate Code) (fuel : Nat) :
    ∃ facts : List Fact,
      ((FactStore.committed r.store).filter fun f => r.mode.Admits f.predicate p).mapM
        (r.convert · p) = .ok facts ∧
      facts.map (·.id) = ((FactStore.committed r.store).filter fun f =>
        r.mode.Admits f.predicate p).map (·.id) ∧
      facts.Pairwise (·.id.number < ·.id.number) ∧
      (∀ dst rest f sink e, Clear r.store e →
        (exec r (deriveFacts r bodies fuel) (.scan p dst :: rest) f sink).run e =
          (visitAll (r.handOn (deriveFacts r bodies fuel) dst rest f) facts sink).run e) ∧
      ∀ key, r.Unmistaken p key → ∃ looked : List Fact, looked.Sublist facts ∧
        looked.filter (·.key = key) = facts.filter (·.key = key) ∧
        ∀ operand dst rest f sink e, operand.eval f.regs = key → Clear r.store e →
          (exec r (deriveFacts r bodies fuel) (.seek p operand dst :: rest) f sink).run e =
            (visitAll (r.handOnIf (deriveFacts r bodies fuel) key dst rest f) looked sink).run e := by
  simp only [← r.readable_eq]
  have hholds := (StoreSession.run_apart ops hkept (hstore ▸ hroom)).holds
  rw [← hstore] at hholds
  have hlen : (FactStore.committed r.store).length < 2 ^ 64 - 1024 := by
    have hsize := LawfulFactStore.size_eq hholds
    omega
  have h : r.On (FactStore.committed r.store) := ⟨hholds, hlen, hfits⟩
  have hderive := deriveFacts_clear r bodies fuel
  have hconvert : ∀ f ∈ (FactStore.committed r.store).filter fun f => r.readable f.predicate p,
      r.convert f p = .ok (r.converted p f) ∧ (r.converted p f).id = f.id := by
    intro f hf
    obtain ⟨hf, hp⟩ := List.mem_filter.mp hf
    obtain ⟨hconvert, hid, -, -⟩ := h.convert_eq hprepare hf hp
    exact ⟨hconvert, hid⟩
  have hids : (((FactStore.committed r.store).filter fun f => r.readable f.predicate p).map
      (r.converted p)).map (·.id) =
        ((FactStore.committed r.store).filter fun f => r.readable f.predicate p).map (·.id) := by
    rw [List.map_map]
    exact List.map_congr_left fun f hf => (hconvert f hf).2
  refine ⟨_, ?_, hids, ?_, fun dst rest f sink e he => h.run_scan hderive hprepare dst rest f sink he,
    fun key hunmistaken => h.run_seek hderive hprepare hunmistaken⟩
  · rw [mapM_ok_iff, List.forall₂_map_right_iff]
    exact List.forall₂_same.mpr fun f hf => (hconvert f hf).1
  · have hpairs : (((FactStore.committed r.store).filter fun f =>
        r.readable f.predicate p).map (·.id)).Pairwise (·.number < ·.number) := by
      rw [List.pairwise_map]
      exact List.Pairwise.filter _ ((LawfulFactStore.numbered h.holds).pairwise h.room)
    rw [← hids, List.pairwise_map] at hpairs
    exact hpairs

/-- Facts about the family, of which some are of the later version. -/
def grownFacts : List StoreOp :=
  [.insert ⟨"family.Person", 1⟩ (.string "Ann") .unit,
    .insert ⟨"family.Person", 1⟩ (.string "Bob") .unit,
    .insert ⟨"family.Parent", 1⟩ (.record [.fact ⟨1024⟩, .fact ⟨1025⟩]) .unit,
    .insert ⟨"family.Parent", 2⟩ (.record [.fact ⟨1024⟩, .fact ⟨1025⟩, .bool true]) .unit,
    .insert ⟨"family.Parent", 2⟩ (.record [.fact ⟨1024⟩, .fact ⟨1025⟩, .bool false]) .unit]

def grownReading : Reading MemoryStore where
  store := ((.new : StoreSession MemoryStore).run grownFacts).store
  stored := grownSchema
  target := grownSchema
  mode := .current

/-- Ann is a child of Bob, and not adopted: so it is in one fact of the later version and, as
nothing else was said, in the one of the first version. -/
def grownKey : Value := .record [.fact ⟨1024⟩, .fact ⟨1025⟩, .bool false]

/-- What the runs on this store are told by evaluation, in one go as they share it. -/
theorem grownReading_evaluated :
    FactStore.size grownReading.store < 2 ^ 64 - 1024 ∧
      (∀ f ∈ FactStore.committed grownReading.store,
        ∃ d ∈ grownSchema.predicates.values, grownSchema.get? f.predicate = some d ∧
          d.key.Conforms f.key ∧ d.value.Conforms f.value) ∧
      (grownReading.prepare ⟨"family.Parent", 2⟩).toOption.isSome ∧
      grownReading.Unmistaken ⟨"family.Parent", 2⟩ grownKey ∧
      (((FactStore.committed grownReading.store).filter fun f =>
        grownReading.mode.Admits f.predicate ⟨"family.Parent", 2⟩).mapM
          (grownReading.convert · ⟨"family.Parent", 2⟩)).toOption.any fun facts =>
            facts.map (·.id) = [⟨1026⟩, ⟨1027⟩, ⟨1028⟩] ∧
              (facts.filter (·.key = grownKey)).map (·.id) = [⟨1026⟩, ⟨1028⟩] := by
  decide +kernel

theorem seek_eq_filtered_scan_grown :
    ∃ facts looked : List Fact, facts.map (·.id) = [⟨1026⟩, ⟨1027⟩, ⟨1028⟩] ∧
      (looked.filter (·.key = grownKey)).map (·.id) = [⟨1026⟩, ⟨1028⟩] ∧
      ∀ sink, (exec grownReading (deriveFacts grownReading ∅ 0)
          [.seek ⟨"family.Parent", 2⟩ (.const grownKey) 0, .emit 0] (.ofRegisters fun _ => .unit)
          sink).run ⟨∅, ∅, FactStore.nextId grownReading.store, 0, none⟩ =
        (visitAll (grownReading.handOnIf (deriveFacts grownReading ∅ 0) grownKey 0 [.emit 0]
          (.ofRegisters fun _ => .unit)) looked sink).run
            ⟨∅, ∅, FactStore.nextId grownReading.store, 0, none⟩ := by
  obtain ⟨hroom, hfits, hprepare, hunmistaken, hfacts⟩ := grownReading_evaluated
  obtain ⟨⟨⟩, hprepare⟩ := Option.isSome_iff_exists.mp hprepare
  obtain ⟨facts, hconverted, hfacts⟩ := (Option.any_eq_true ..).mp hfacts
  obtain ⟨hids, hkeys⟩ := of_decide_eq_true hfacts
  have hstore : grownReading.store = ((.new : StoreSession MemoryStore).run grownFacts).store := by
    rw [grownReading]
  obtain ⟨facts', hconverted', -, -, -, hseek⟩ := seek_eq_filtered_scan grownReading grownFacts
    (fun _ _ _ _ => trivial) hstore hroom
    (fun f hf => (hfits f hf).imp fun _ => And.right) ⟨"family.Parent", 2⟩
    (mem_toOption_iff.mp hprepare) ∅ 0
  cases (mem_toOption_iff.mp hconverted).symm.trans hconverted'
  obtain ⟨looked, -, hlooked, hrun⟩ := hseek grownKey hunmistaken
  exact ⟨facts, looked, hids, hlooked ▸ hkeys,
    fun sink => hrun _ 0 _ _ sink _ rfl (clear_start grownReading.store 0 none)⟩

end Reading

end Factbase
