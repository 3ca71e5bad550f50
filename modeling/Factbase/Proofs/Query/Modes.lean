import Factbase.Proofs.Query.Expansion
import Factbase.Proofs.Query.Monotone
import Factbase.Proofs.Query.Reads
import Factbase.Proofs.Query.Rendering

/-!
# The two modes agree where nothing has evolved

Where every name has one version and facts are stored under the schema of
the query, both modes read a fact as what it is: at its own predicate, and
at no other one that is defined (`Unevolved.read_eq`). They seek facts in
different ways only at a predicate that has none. In current mode it has
no sources; in stored mode the search may meet facts of other predicates,
which are then not read (`Unevolved.exec_seek_none`).

So a program that reads what the schema defines runs alike in both modes
(`Unevolved.run_agree`), its results are written alike, and every query
does the same in both (`CompiledQuery.execute_modes`).
-/

namespace Factbase

variable {σ : Type}

/-! ## Reading facts as they are -/

/-- Every name has one version. -/
def Schema.Single (s : Schema) : Prop :=
  ∀ p q, s.Defines p → s.Defines q → p.name = q.name → p = q

instance (s : Schema) : Decidable s.Single :=
  decidable_of_iff (∀ p ∈ s.predicates.keys, ∀ q ∈ s.predicates.keys, p.name = q.name → p = q)
    ⟨fun h p q hp hq => h p (SortedMap.mem_keys_iff.mpr hp) q (SortedMap.mem_keys_iff.mpr hq),
      fun h p hp q hq => h p q (SortedMap.mem_keys_iff.mp hp) (SortedMap.mem_keys_iff.mp hq)⟩

/-- A reading of facts under the schema that they are stored under. -/
def Schema.reading (s : Schema) (store : σ) (mode : SchemaMode) : Reading σ := ⟨store, s, s, mode⟩

theorem Schema.reading_conversion {s : Schema} {p : Predicate} (hp : s.Defines p) (store : σ)
    (mode : SchemaMode) : (s.reading store mode).conversion p p = .ok ⟨.identity, .identity⟩ := by
  obtain ⟨d, hd⟩ := hp
  have hbetween (ty : Ty) : Conversion.between ty ty = .ok .identity := by
    rw [Conversion.between.eq_def, if_pos rfl]
  unfold Reading.conversion
  split
  · rfl
  · simp only [reading, hd, hbetween]
    rfl

/-- Nothing has evolved: the facts of a store conform to a registered schema in which every name
has one version. -/
structure Unevolved [FactStore σ] [LawfulFactStore σ] (s : Schema) (store : σ) (log : List Fact) :
    Prop where
  registered : s.Registered
  single : s.Single
  holds : LawfulFactStore.Holds store log
  fits : ∀ f ∈ log, s.Fits f

namespace Unevolved

variable [FactStore σ] [LawfulFactStore σ] {s : Schema} {store : σ} {log : List Fact}
  (h : Unevolved s store log) (mode : SchemaMode)

include h

theorem defines {f : Fact} (hf : f ∈ log) : s.Defines f.predicate := by
  obtain ⟨d, hd, -⟩ := h.fits f hf
  exact ⟨d, hd⟩

theorem mem_of_lookup {id : FactId} {f : Fact} (hf : FactStore.lookup store id = some f) : f ∈ log := by
  rw [LawfulFactStore.lookup_eq h.holds] at hf
  exact List.mem_reverse.mp (List.mem_of_find?_eq_some hf)

/-- Facts are read at their own predicate only. -/
theorem readable_iff {p q : Predicate} (hq : s.Defines q) (hp : s.Defines p) :
    (s.reading store mode).readable q p = true ↔ q = p := by
  cases mode with
  | stored => simp [Schema.reading, Reading.readable]
  | current =>
      simp only [Schema.reading, Reading.readable, Bool.and_eq_true, decide_eq_true_eq]
      exact ⟨fun hread => h.single q p hq hp hread.1, fun heq => heq ▸ ⟨rfl, UInt32.le_refl _⟩⟩

theorem convert_self {f : Fact} (hf : f ∈ log) :
    (s.reading store mode).convert f f.predicate = .ok f :=
  Reading.convert_ok_iff.mpr ⟨_, f.key, f.value, s.reading_conversion (h.defines hf) store mode,
    Conversion.apply_identity _, Conversion.apply_identity _, rfl⟩

/-- A fact is found as what it is. -/
theorem read_eq {p : Predicate} (hp : s.Defines p) (overlay : Overlay) (id : FactId) :
    (s.reading store mode).read overlay id p = .ok (match overlay.get? id with
      | some f => if f.predicate = p then some f else none
      | none => (FactStore.lookup store id).filter (·.predicate = p)) := by
  rw [Reading.read]
  cases overlay.get? id with
  | some f => rfl
  | none =>
      dsimp only
      rw [show (s.reading store mode).store = store from rfl]
      cases hlookup : FactStore.lookup store id with
      | none => rfl
      | some f =>
          have hf := h.mem_of_lookup hlookup
          have hread := h.readable_iff mode (h.defines hf) hp
          by_cases heq : f.predicate = p
          · subst heq
            simp [hread.mpr rfl, h.convert_self mode hf, Option.filter_some]
          · simp [mt hread.mp heq, heq, pure, Except.pure, Option.filter_some]

theorem readStored_eq {f : Fact} (hf : f ∈ log) : (s.reading store mode).readStored f = .ok f := by
  have hown : (s.reading store mode).ownTarget f.predicate = f.predicate := by
    cases mode with
    | stored => rfl
    | current =>
        unfold Schema.reading Reading.ownTarget
        dsimp only
        cases hlatest : s.latest? f.predicate.name with
        | none => rfl
        | some q =>
            have hq := h.single q f.predicate (Schema.latest?_defined h.registered.coherent hlatest)
              (h.defines hf) (Schema.latest?_name hlatest)
            subst hq
            simp [Option.filter_some]
  rw [Reading.readStored, hown, h.convert_self mode hf]

theorem readAny_eq (overlay : Overlay) (id : FactId) :
    (s.reading store mode).readAny overlay id =
      .ok ((overlay.get? id).or (FactStore.lookup store id)) := by
  rw [Reading.readAny]
  cases overlay.get? id with
  | some f => rfl
  | none =>
      dsimp only
      rw [show (s.reading store mode).store = store from rfl]
      cases hlookup : FactStore.lookup store id with
      | none => rfl
      | some f =>
          dsimp only
          rw [h.readStored_eq mode (h.mem_of_lookup hlookup)]
          rfl

/-! ## Searches -/

/-- A defined predicate is its own only source, unless it has no facts. -/
theorem sources_cases {p : Predicate} (hp : s.Defines p) :
    (s.reading store mode).sources p = [p] ∨
      (∀ f ∈ log, f.predicate ≠ p) ∧ (s.reading store mode).sources p = [] := by
  cases mode with
  | stored => exact .inl rfl
  | current =>
      have hmem (q : Predicate) : q ∈ (s.reading store .current).sources p ↔
          q = p ∧ ∃ f ∈ log, f.predicate = q := by
        show q ∈ (FactStore.predicates store).filter ((s.reading store .current).readable · p) ↔ _
        rw [List.mem_filter, LawfulFactStore.predicates_eq h.holds, FactIndex.mem_predicates_ofFacts,
          and_comm]
        refine and_congr_left fun ⟨f, hf, hfq⟩ => ?_
        exact h.readable_iff .current (hfq ▸ h.defines hf) hp
      have hnodup : ((s.reading store .current).sources p).Nodup :=
        (LawfulFactStore.predicates_nodup h.holds).filter _
      generalize (s.reading store .current).sources p = sources at hmem hnodup
      cases sources with
      | nil =>
          refine .inr ⟨fun f hf hfp => ?_, rfl⟩
          exact List.not_mem_nil ((hmem f.predicate).mpr ⟨hfp, f, hf, rfl⟩)
      | cons q rest =>
          obtain ⟨rfl, -⟩ := (hmem q).mp (List.mem_cons_self ..)
          cases rest with
          | nil => exact .inl rfl
          | cons q' rest =>
              obtain ⟨rfl, -⟩ := (hmem q').mp (List.mem_cons_of_mem _ (List.mem_cons_self ..))
              exact absurd (List.mem_cons_self ..) (List.nodup_cons.mp hnodup).1

theorem prepare_eq {p : Predicate} (hp : s.Defines p) : (s.reading store mode).prepare p = .ok () := by
  rw [Reading.prepare]
  obtain hsources | ⟨-, hsources⟩ := h.sources_cases mode hp
  · rw [hsources]
    show (discard ((s.reading store mode).conversion p p) >>= fun _ => List.forM [] _) = _
    rw [s.reading_conversion hp store mode]
    rfl
  · rw [hsources]
    rfl

theorem scan_eq {p : Predicate} (hp : s.Defines p) :
    (s.reading store mode).scan p = Reading.sortIds (FactStore.scan store p) := by
  rw [Reading.scan]
  obtain hsources | ⟨hnone, hsources⟩ := h.sources_cases mode hp
  · rw [hsources]
    exact congrArg Reading.sortIds (List.append_nil _)
  · have hempty : FactStore.scan store p = [] := by
      rw [LawfulFactStore.scan_eq h.holds, FactIndex.scan_ofFacts, List.map_eq_nil_iff,
        List.filter_eq_nil_iff]
      exact fun f hf => by simpa using hnone f hf
    rw [hsources, hempty]
    rfl

/-- Facts are sought by their digests, unless the predicate has none. -/
theorem seek_cases {p : Predicate} (hp : s.Defines p) (key : Value) :
    (s.reading store mode).seek p key = .ok (Reading.sortIds (FactStore.seek store p key)) ∨
      (∀ f ∈ log, f.predicate ≠ p) ∧ (s.reading store mode).seek p key = .ok [] := by
  rw [Reading.seek]
  obtain hsources | ⟨hnone, hsources⟩ := h.sources_cases mode hp
  · rw [hsources, List.mapM_cons, s.reading_conversion hp store mode, List.mapM_nil]
    exact .inl (congrArg (fun ids => Except.ok (Reading.sortIds ids)) (List.append_nil _))
  · rw [hsources, List.mapM_nil]
    refine .inr ⟨hnone, ?_⟩
    show Except.ok (Reading.sortIds []) = _
    rw [Reading.sortIds, List.mergeSort_nil]

end Unevolved

/-! ## Runs -/

/-- The facts that a run has made up are of derived predicates. -/
def Evaluation.OnlyDerived (s : Schema) (e : Evaluation) : Prop :=
  ∀ id f, e.overlay.get? id = some f → ∃ d, s.get? f.predicate = some d ∧ d.isDerived = true

/-- Two runs do the same where only derived facts have been made up, and make up only such. -/
structure Agree {α : Type} (s : Schema) (m m' : Run α) : Prop where
  same : ∀ e, e.OnlyDerived s → m.run e = m'.run e
  keeps : Outcome.Preserves (Evaluation.OnlyDerived s) m

namespace Agree

variable {α β : Type} {s : Schema} {m m' : Run α}

theorem refl (h : Outcome.Preserves (Evaluation.OnlyDerived s) m) : Agree s m m := ⟨fun _ _ => rfl, h⟩

theorem pure (a : α) : Agree s (pure a) (pure a) := .refl .pure

theorem throw (x : Error) : Agree s (throw x : Run α) (throw x) :=
  .refl fun _ _ _ _ h => nomatch h

theorem addDerived {p : Predicate} (hp : ∃ d, s.get? p = some d ∧ d.isDerived = true) (key : Value) :
    Agree s (Factbase.addDerived p key) (Factbase.addDerived p key) := by
  refine .refl fun e id e' he h id' f hf => ?_
  cases h
  replace hf : (e.overlay.insert e.next ⟨e.next, p, key, .unit⟩).get? id' = some f := hf
  rw [SortedMap.get?_insert] at hf
  split at hf
  · cases hf
    exact hp
  · exact he id' f hf

/-- What follows has to agree only for what the first run may give. -/
theorem andThen {f f' : α → Run β} (h : Agree s m m')
    (hrest : ∀ e a e', m.run e = .ok (a, e') → Agree s (f a) (f' a)) : Agree s (m >>= f) (m' >>= f') where
  same e he := by
    rw [StateT.run_bind, StateT.run_bind, ← h.same e he]
    cases hm : m.run e with
    | error x => rfl
    | ok res => exact (hrest e res.1 res.2 hm).same res.2 (h.keeps e res.1 res.2 he hm)
  keeps e b e' he hrun := by
    obtain ⟨a, e₁, hm, hrun⟩ := Outcome.stateT_bind_ok_iff.mp hrun
    exact (hrest e a e₁ hm).keeps e₁ b e' (h.keeps e a e₁ he hm) hrun

theorem bind {f f' : α → Run β} (h : Agree s m m') (hrest : ∀ a, Agree s (f a) (f' a)) :
    Agree s (m >>= f) (m' >>= f') :=
  h.andThen fun _ a _ _ => hrest a

theorem visitAll {step step' : α → Sink → Run Sink} {xs : List α}
    (h : ∀ x ∈ xs, ∀ sink, Agree s (step x sink) (step' x sink)) (sink : Sink) :
    Agree s (Factbase.visitAll step xs sink) (Factbase.visitAll step' xs sink) := by
  induction xs generalizing sink with
  | nil => exact .pure sink
  | cons x xs ih =>
      obtain ⟨hx, hxs⟩ := List.forall_mem_cons.mp h
      rw [Factbase.visitAll, Factbase.visitAll]
      refine (hx sink).bind fun sink' => ?_
      cases sink'.truncated with
      | true => exact .pure sink'
      | false => exact ih hxs sink'

theorem mapM {f f' : β → Run α} (h : ∀ b, Agree s (f b) (f' b)) (l : List β) :
    Agree s (l.mapM f) (l.mapM f') := by
  induction l with
  | nil => exact .pure []
  | cons b l ih =>
      rw [List.mapM_cons, List.mapM_cons]
      exact (h b).bind fun a => ih.bind fun as => .pure (a :: as)

/-- A step that changes nothing but counts, and what follows it. -/
theorem into {step : Step α} {next next' : α → Sink → Run Sink} (hstep : step.Counts)
    (hnext : ∀ a sink, Agree s (next a sink) (next' a sink)) (sink : Sink) :
    Agree s (step.into next sink) (step.into next' sink) := by
  have hkeeps : Outcome.Preserves (Evaluation.OnlyDerived s) step.run := by
    intro e found e' he hrun
    have hoverlay : e'.overlay = e.overlay := congrArg World.overlay (hstep e found e' hrun).1
    rwa [Evaluation.OnlyDerived, hoverlay]
  refine (Agree.refl hkeeps).bind fun found => ?_
  cases found with
  | none => exact .pure sink
  | some a => exact hnext a sink

end Agree

/-- Steps that all give up leave everything as it is. -/
theorem visitAll_skip {α : Type} {step : α → Sink → Run Sink} {xs : List α} {sink : Sink} {e : Evaluation}
    (h : ∀ x ∈ xs, (step x sink).run e = .ok (sink, e)) :
    (visitAll step xs sink).run e = .ok (sink, e) := by
  induction xs with
  | nil => rfl
  | cons x xs ih =>
      obtain ⟨hx, hxs⟩ := List.forall_mem_cons.mp h
      rw [run_visitAll_cons, hx]
      exact (ite_congr rfl (fun _ => rfl) fun _ => ih hxs).trans (ite_self _)

section Runs

variable [FactStore σ] [LawfulFactStore σ] {s : Schema} {store : σ} {log : List Fact}
  {derive derive' : Predicate → Run (List FactId)}

namespace Unevolved

variable (h : Unevolved s store log)

include h

theorem read_agree {p : Predicate} (hp : s.Defines p) (overlay : Overlay) (id : FactId) :
    (s.reading store .current).read overlay id p = (s.reading store .stored).read overlay id p :=
  (h.read_eq .current hp overlay id).trans (h.read_eq .stored hp overlay id).symm

theorem readAny_agree (overlay : Overlay) (id : FactId) :
    (s.reading store .current).readAny overlay id = (s.reading store .stored).readAny overlay id :=
  (h.readAny_eq .current overlay id).trans (h.readAny_eq .stored overlay id).symm

/-- Straight instructions are the same in both modes. -/
theorem step_agree {i : Instr} (hi : i.Refers s) (f : Frame) :
    i.step (s.reading store .current) f = i.step (s.reading store .stored) f := by
  cases i with
  | deref src p dst =>
      rw [Instr.step, Instr.step]
      cases f.regs src with
      | fact id =>
          dsimp only
          rw [funext fun overlay => h.read_agree hi overlay id]
      | _ => rfl
  | _ => rfl

/-- What instructions draw that neither seek nor derive is the same in both modes. -/
theorem draws_agree {i : Instr} (hi : i.Refers s) (hseek : ∀ p operand dst, i ≠ .seek p operand dst)
    (hderive : ∀ p dst, i ≠ .derive p dst) (f : Frame) :
    i.draws (s.reading store .current) derive f = i.draws (s.reading store .stored) derive' f := by
  cases i with
  | scan p dst =>
      have hscan := (h.scan_eq .current hi).trans (h.scan_eq .stored hi).symm
      simp only [Instr.draws, hscan, h.read_agree hi]
  | seek p operand dst => exact absurd rfl (hseek p operand dst)
  | derive p dst => exact absurd rfl (hderive p dst)
  | load id dst =>
      rw [Instr.draws, Instr.draws]
      refine bind_congr fun e => ?_
      cases e.overlay.get? id with
      | some fact => rfl
      | none =>
          dsimp only
          rw [show (s.reading store .current).store = (s.reading store .stored).store from rfl]
          cases hlookup : FactStore.lookup (s.reading store .stored).store id with
          | none => rfl
          | some stored =>
              have hmem : stored ∈ log := h.mem_of_lookup hlookup
              simp only [h.readStored_eq .current hmem, h.readStored_eq .stored hmem, h.readAny_agree]
  | _ => exact congrArg (fun step => pure [step]) (h.step_agree hi f)

theorem draws_seek_agree {p : Predicate} {operand : Operand} {dst : Nat}
    (hi : (Instr.seek p operand dst).Refers s) (hthere : ∃ f ∈ log, f.predicate = p) (f : Frame) :
    Instr.draws (s.reading store .current) derive (.seek p operand dst) f =
      Instr.draws (s.reading store .stored) derive' (.seek p operand dst) f := by
  obtain ⟨d, hd, -⟩ := hi
  obtain ⟨g, hg, hgp⟩ := hthere
  have hseek (mode : SchemaMode) :=
    (h.seek_cases mode ⟨d, hd⟩ (operand.eval f.regs)).resolve_right fun hnone => hnone.1 g hg hgp
  simp only [Instr.draws, hseek, h.read_agree ⟨d, hd⟩]

/-- Seeking the facts of a predicate that has none leaves everything as it is: whatever is found
is not read. -/
theorem exec_seek_none (mode : SchemaMode) {p : Predicate} {operand : Operand} {dst : Nat}
    (hi : (Instr.seek p operand dst).Refers s) (hnone : ∀ f ∈ log, f.predicate ≠ p) (rest : List Instr)
    (f : Frame) (sink : Sink) {e : Evaluation} (he : e.OnlyDerived s) :
    (exec (s.reading store mode) derive (.seek p operand dst :: rest) f sink).run e = .ok (sink, e) := by
  obtain ⟨d, hd, hderived⟩ := hi
  obtain ⟨ids, hids⟩ : ∃ ids, (s.reading store mode).seek p (operand.eval f.regs) = .ok ids := by
    obtain hseek | ⟨-, hseek⟩ := h.seek_cases mode ⟨d, hd⟩ (operand.eval f.regs)
    exacts [⟨_, hseek⟩, ⟨_, hseek⟩]
  have hread (id : FactId) : (s.reading store mode).read e.overlay id p = .ok none := by
    rw [h.read_eq mode ⟨d, hd⟩]
    cases hmade : e.overlay.get? id with
    | some g =>
        obtain ⟨d', hd', hderived'⟩ := he id g hmade
        have hne : g.predicate ≠ p := by
          rintro rfl
          cases hd.symm.trans hd'
          cases hderived.symm.trans hderived'
        simp [hne]
    | none =>
        cases hlookup : FactStore.lookup store id with
        | none => rfl
        | some g => simp [Option.filter_some, hnone g (h.mem_of_lookup hlookup)]
  rw [exec_draws rfl, Instr.draws, hids]
  show (visitAll _ (ids.map _) sink).run e = _
  rw [visitAll_map]
  refine visitAll_skip fun id _ => ?_
  rw [Step.into_bind, fetch_into]
  exact run_visitRead_none _ _ (hread id)

theorem exec_agree (hderive : ∀ p, Agree s (derive p) (derive' p)) {code : List Instr}
    (hcode : ∀ i ∈ code, i.Refers s) (f : Frame) (sink : Sink) :
    Agree s (exec (s.reading store .current) derive code f sink)
      (exec (s.reading store .stored) derive' code f sink) := by
  induction code generalizing f sink with
  | nil =>
      rw [exec, exec]
      exact .pure sink
  | cons i rest ih =>
      obtain ⟨hi, hrest⟩ := List.forall_mem_cons.mp hcode
      have ih := ih hrest
      cases hend : i.isEnd with
      | true =>
          cases i with
          | barrier keep =>
              rw [exec_barrier, exec_barrier]
              exact .pure _
          | emit src =>
              rw [exec_emit, exec_emit]
              exact .pure _
          | _ => cases hend
      | false =>
          -- the rest is run alike for whatever is drawn alike
          have hdrawn (hdraws : Agree s (i.draws (s.reading store .current) derive f)
              (i.draws (s.reading store .stored) derive' f)) :
              Agree s (exec (s.reading store .current) derive (i :: rest) f sink)
                (exec (s.reading store .stored) derive' (i :: rest) f sink) := by
            rw [exec_draws hend, exec_draws hend]
            refine hdraws.andThen fun e steps e' hsteps => .visitAll (fun step hstep sink => ?_) sink
            exact .into ((Instr.draws_cases hsteps).1 step hstep) ih sink
          have hquiet (hderive : ∀ p dst, i ≠ .derive p dst) : Outcome.Preserves
              (Evaluation.OnlyDerived s) (i.draws (s.reading store .current) derive f) := by
            intro e steps e' he hsteps
            obtain ⟨-, rfl⟩ | ⟨p, dst, _, rfl, -⟩ := (Instr.draws_cases hsteps).2
            · exact he
            · exact absurd rfl (hderive p dst)
          cases i with
          | seek p operand dst =>
              by_cases hthere : ∃ f ∈ log, f.predicate = p
              · refine hdrawn ?_
                rw [← h.draws_seek_agree hi hthere f]
                exact .refl (hquiet (by simp))
              · have hnone : ∀ f ∈ log, f.predicate ≠ p := fun g hg hgp => hthere ⟨g, hg, hgp⟩
                exact ⟨fun e he => (h.exec_seek_none .current hi hnone rest f sink he).trans
                    (h.exec_seek_none .stored hi hnone rest f sink he).symm,
                  fun e a e' he hrun => by
                    cases (h.exec_seek_none .current hi hnone rest f sink he).symm.trans hrun
                    exact he⟩
          | derive p dst =>
              refine hdrawn ?_
              rw [Instr.draws, Instr.draws]
              exact (hderive p).bind fun ids => .pure _
          | _ =>
              refine hdrawn ?_
              rw [← h.draws_agree hi (by simp) (by simp) f]
              exact .refl (hquiet (by simp))

theorem runBlocks_agree (hderive : ∀ p, Agree s (derive p) (derive' p)) (limit : Option Nat)
    {blocks : List (List Instr)} (hblocks : ∀ block ∈ blocks, ∀ i ∈ block, i.Refers s)
    (frames : List Registers) :
    Agree s (runBlocks (s.reading store .current) derive limit blocks frames)
      (runBlocks (s.reading store .stored) derive' limit blocks frames) := by
  have hblock {block : List Instr} (hcode : ∀ i ∈ block, i.Refers s) (limit : Option Nat)
      (frames : List Registers) : Agree s (runBlock (s.reading store .current) derive limit block frames)
        (runBlock (s.reading store .stored) derive' limit block frames) :=
    .visitAll (fun regs _ sink => h.exec_agree hderive hcode (.ofRegisters regs) sink) _
  induction blocks generalizing frames with
  | nil =>
      rw [runBlocks, runBlocks]
      exact .pure _
  | cons block blocks ih =>
      obtain ⟨hfirst, hrest⟩ := List.forall_mem_cons.mp hblocks
      cases blocks with
      | nil =>
          rw [runBlocks, runBlocks]
          exact hblock hfirst limit frames
      | cons next blocks =>
          rw [runBlocks_cons (List.cons_ne_nil _ _), runBlocks_cons (List.cons_ne_nil _ _)]
          exact (hblock hfirst none frames).bind fun sink => ih hrest sink.frames

theorem deriveFacts_agree {codes : SortedMap Predicate Code}
    (hcodes : ∀ p code, codes.get? p = some code → (∃ d, s.get? p = some d ∧ d.isDerived = true) ∧
      ∀ block ∈ code.blocks, ∀ i ∈ block, i.Refers s) (fuel : Nat) (p : Predicate) :
    Agree s (deriveFacts (s.reading store .current) codes fuel p)
      (deriveFacts (s.reading store .stored) codes fuel p) := by
  unfold deriveFacts
  refine (Agree.refl (fun e b e' he hrun => by cases hrun; exact he)).bind fun e => ?_
  cases e.derived.get? p with
  | some ids => exact .pure ids
  | none =>
      dsimp only
      rw [show (s.reading store .current).store = store from rfl,
        show (s.reading store .stored).store = store from rfl]
      by_cases hstate : FactStore.state store = .complete
      · simp only [hstate, ne_eq, not_true_eq_false, if_false]
        cases hcode : codes.get? p with
        | none => exact .throw _
        | some code =>
            obtain ⟨hderived, hblocks⟩ := hcodes p code hcode
            cases fuel with
            | zero => exact .throw _
            | succ fuel =>
                refine (h.runBlocks_agree (deriveFacts_agree hcodes fuel) none hblocks _).bind
                  fun sink => (Agree.mapM (fun key => .addDerived hderived key) sink.values).bind
                    fun ids => ?_
                refine (Agree.refl fun e b e' he hrun => ?_).bind fun _ => .pure ids
                cases hrun
                exact he
      · simp only [hstate, ne_eq, not_false_eq_true, if_true]
        exact .throw _

/-- A program that reads what the schema defines runs alike in both modes. -/
theorem run_agree {p : Program} (hp : p.Refers s) (limit : Option Nat) :
    Agree s (p.run (s.reading store .current) limit) (p.run (s.reading store .stored) limit) :=
  h.runBlocks_agree (h.deriveFacts_agree hp.derived p.derived.size) limit hp.main _

end Unevolved

end Runs

/-! ## Results -/

/-- The references in a fact are at predicates that are defined. -/
theorem Schema.Coherent.within {s : Schema} (hs : s.Coherent) (f : Fact) :
    Rendering.Within (fun p _ => s.Defines p) s f := by
  intro d hd
  have hposition {ty : Ty} (hty : ty.Every (Ty.Sane s.Defines)) {v : Value} :
      ∀ e ∈ ty.positions v, s.Defines e.1 :=
    fun e he => Ty.known_of_mem_predicates (hty.mono fun _ h => h.known) (Ty.mem_positions he).1
  exact ⟨hposition (hs.types _ d hd).1, hposition (hs.types _ d hd).2⟩

section Results

variable [FactStore σ] [LawfulFactStore σ] {s : Schema} {store : σ} {log : List Fact}

namespace Unevolved

variable (h : Unevolved s store log)

include h

/-- Results are written alike in both modes. -/
theorem rendering_alike (overlay : Overlay) (policy : ExpandPolicy) (noExpand : SortedSet (List String)) :
    Rendering.Alike (fun p _ => s.Defines p) ⟨(s.reading store .stored).read overlay, s, policy, noExpand⟩
      ⟨(s.reading store .current).read overlay, s, policy, noExpand⟩ where
  schema := rfl
  policy := rfl
  noExpand := rfl
  read _ id hp := h.read_agree hp overlay id
  found _ _ f _ _ := h.registered.coherent.within f

theorem factOf_agree {plan : Plan} {program : Program}
    (hout : plan.main.outcome.Every (Ty.Resolved s.Defines)) (overlay : Overlay) (v : Value) :
    CompiledQuery.factOf ⟨s, .current, plan, program⟩ (s.reading store .current) overlay v =
      CompiledQuery.factOf ⟨s, .stored, plan, program⟩ (s.reading store .stored) overlay v := by
  unfold CompiledQuery.factOf
  cases houtcome : plan.main.outcome with
  | fact p =>
      rw [houtcome] at hout
      cases v with
      | fact id => simp only [h.read_agree (hout.known p rfl)]
      | _ => rfl
  | anyFact =>
      cases v with
      | fact id => simp only [h.readAny_agree]
      | _ => rfl
  | value ty => rfl

theorem binding_agree {plan : Plan} {program : Program}
    (hout : plan.main.outcome.Every (Ty.Resolved s.Defines)) (overlay : Overlay) (policy : ExpandPolicy) (v : Value) :
    CompiledQuery.binding ⟨s, .current, plan, program⟩ (s.reading store .current) overlay policy v =
      CompiledQuery.binding ⟨s, .stored, plan, program⟩ (s.reading store .stored) overlay policy v := by
  have halike := h.rendering_alike overlay policy plan.main.noExpand
  unfold CompiledQuery.binding
  rw [h.factOf_agree hout]
  refine bind_congr fun found => ?_
  cases found with
  | some f => simp only [halike.fact (h.registered.coherent.within f)]
  | none =>
      cases houtcome : plan.main.outcome with
      | value ty =>
          rw [houtcome] at hout
          have hpositions : ∀ e ∈ ty.positions v, s.Defines e.1 := fun e he =>
            Ty.known_of_mem_predicates (Ty.Every.mono (fun _ h => h.known) hout) (Ty.mem_positions he).1
          simp only [halike.value hpositions]
      | _ => rfl

/-- A plan that is typed is executed alike in both modes. -/
theorem execute_agree {plan : Plan} (hplan : plan.Typed s)
    (hout : plan.main.outcome.Every (Ty.Resolved s.Defines)) (o : QueryOptions) :
    CompiledQuery.execute ⟨s, .current, plan, plan.compile⟩ store s o =
      CompiledQuery.execute ⟨s, .stored, plan, plan.compile⟩ store s o := by
  have hprepare (mode : SchemaMode) (ps : List Predicate) (hps : ∀ p ∈ ps, s.Defines p) :
      ps.forM (s.reading store mode).prepare = .ok () := by
    induction ps with
    | nil => rfl
    | cons p ps ih =>
        obtain ⟨hp, hps⟩ := List.forall_mem_cons.mp hps
        rw [List.forM, h.prepare_eq mode hp]
        exact ih hps
  have hrun := (h.run_agree hplan.refers_compile o.limit).same
    ⟨∅, ∅, FactStore.nextId store, 0, if o.profile then some .empty else none⟩ fun _ _ hf => by cases hf
  have hexecute (mode : SchemaMode) : CompiledQuery.execute ⟨s, mode, plan, plan.compile⟩ store s o = do
      let out ← (plan.compile.run (s.reading store mode) o.limit).run
        ⟨∅, ∅, FactStore.nextId store, 0, if o.profile then some .empty else none⟩
      let bindings ← out.1.values.mapM
        (CompiledQuery.binding ⟨s, mode, plan, plan.compile⟩ (s.reading store mode) out.2.overlay o.expand)
      return ⟨bindings, out.1.truncated, out.2.searched, out.2.profile⟩ := by
    refine Eq.trans ?_ (congrArg (fun prepared : Except Error Unit => prepared >>= fun _ => _)
      (hprepare mode _ hplan.touches_compile))
    rfl
  rw [hexecute, hexecute, hrun]
  refine bind_congr fun out => ?_
  rw [funext (h.binding_agree hout out.2.overlay o.expand)]

end Unevolved

end Results

namespace CompiledQuery

/-- Where no predicate has more than one version and the facts of a store conform to the schema
that a query is compiled for, the query does the same in both modes: it fails with the same error,
or it gives the same results, written alike and in the same order, and counts the same facts. -/
theorem execute_modes [FactStore σ] [LawfulFactStore σ] {s : Schema} (hs : s.Registered)
    (hsingle : s.Single) {store : σ} {log : List Fact} (hholds : LawfulFactStore.Holds store log)
    (hfits : ∀ f ∈ log, s.Fits f) (text : String) (o : QueryOptions) :
    (ofText text s .current >>= fun q => q.execute store s o) =
      ofText text s .stored >>= fun q => q.execute store s o := by
  unfold ofText
  cases (Query.read text).mapError Error.source with
  | error e => rfl
  | ok query =>
      cases hplan : query.typed s with
      | error e =>
          show (query.typed s >>= _) >>= _ = (query.typed s >>= _) >>= _
          rw [hplan]
          rfl
      | ok plan =>
          obtain ⟨htyped, hout⟩ := query.typed_resolved hs.coherent hplan
          show (query.typed s >>= _) >>= _ = (query.typed s >>= _) >>= _
          rw [hplan]
          exact Unevolved.execute_agree ⟨hs, hsingle, hholds, hfits⟩ htyped hout o

/-- A name that is derived from a station, and the two readings under an id. -/
theorem execute_modes_readings :
    ∃ results, (ofText "weather.Name N; $1025" weatherSchema .current >>= fun q =>
        q.execute (stationStore (firstReading ++ secondReading)) weatherSchema default) = .ok results ∧
      (ofText "weather.Name N; $1025" weatherSchema .stored >>= fun q =>
        q.execute (stationStore (firstReading ++ secondReading)) weatherSchema default) = .ok results ∧
      results.bindings.length = 2 := by
  have hrun : (ofText "weather.Name N; $1025" weatherSchema .stored >>= fun q =>
      q.execute (stationStore (firstReading ++ secondReading)) weatherSchema default).toOption.any
        (·.bindings.length = 2) = true := by
    decide +kernel
  obtain ⟨results, hresults, hlen⟩ := (Option.any_eq_true _ _).mp hrun
  have hresults := Outcome.mem_toOption_iff.mp hresults
  have hregistered : weatherSchema.Registered := Schema.Registered.builtin.register_getD _
  have hover := StoreSession.reading_over (σ := MemoryStore) (· ∈ readingsMet) readingsMet_collisionless
    (fun _ _ => trivial) (firstReading ++ secondReading)
    (fun op hop c hc => List.mem_filterMap.mpr ⟨op, hop, hc⟩) (by decide +kernel) stationStore_fits
    hregistered (by unfold Schema.Narrow; decide +kernel) fun _ : SchemaMode.stored = _ => rfl
  have hmodes := execute_modes hregistered (by decide +kernel) hover.holds stationStore_fits
    "weather.Name N; $1025" default
  exact ⟨results, hmodes.trans hresults, hresults, of_decide_eq_true hlen⟩

end CompiledQuery

end Factbase
