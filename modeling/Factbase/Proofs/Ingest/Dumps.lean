import Factbase.Ingest.Dump
import Factbase.Proofs.Ingest.Staging
import Factbase.Proofs.Schema.Naming
import Factbase.Proofs.Schema.Written
import Factbase.Proofs.Store.Digests

/-!
# Dumps are read back

The dump of a store, staged on top of an empty one, gives the facts again
under the same ids. A dump is a function of the log (`dump_eq`), so what is
to be shown is that staging it leads to the same log.

The invariant (`Staging.Mirrors`) says that the batch holds the first facts
of the log, and that the number of each of them stands for it. Every
reference in the next fact is to one of these, so its entry is read as its
key and value; its digest is a new one, so it is pushed, under the id that
it has in the log.
-/

namespace Factbase

/-! ## A dump is a function of the log -/

/-- The entry of a fact, with the text of its predicate. -/
def Schema.entryOf (schema : Schema) (f : Fact) : Except Error (String × FactEntry) :=
  match schema.get? f.predicate with
  | some d => do return (f.predicate.render, ← FactEntry.ofFact d f)
  | none => throw (.unresolved (.unknown f.predicate.render))

/-- Entries that follow one another, as groups. -/
def FactGroup.ofEntries (es : List (String × FactEntry)) : List FactGroup :=
  es.foldr (fun e gs => FactGroup.cons e.1 e.2 gs) []

section Logs

variable {σ : Type} [FactStore σ] [LawfulFactStore σ] {s : σ} {log : List Fact}

open LawfulFactStore

theorem dumpEntries_eq (schema : Schema) (hholds : Holds s log)
    (hroom : log.length < 2 ^ 64 - 1024) {fs : List Fact} (hfs : fs ⊆ log) :
    FactStore.dumpEntries s schema (fs.map (·.id)) = fs.mapM schema.entryOf := by
  induction fs with
  | nil => rfl
  | cons f fs ih =>
      obtain ⟨hf, hrest⟩ := List.cons_subset.mp hfs
      have hget : FactStore.get s f.id = .ok f := by
        rw [FactStore.get, (lookup_eq_some_iff hholds hroom).mpr ⟨hf, rfl⟩]
      rw [FactStore.dumpEntries, List.map_cons, List.mapM_cons, List.mapM_cons, hget,
        ← FactStore.dumpEntries, ih hrest]
      rfl

/-- A dump is a function of the log. -/
theorem dump_eq (schema : Schema) (hholds : Holds s log) (hroom : log.length < 2 ^ 64 - 1024) :
    FactStore.dump s schema = FactGroup.ofEntries <$> log.mapM schema.entryOf := by
  rw [FactStore.dump, ids_eq_map hholds hroom,
    dumpEntries_eq schema hholds hroom (List.Subset.refl _)]
  rfl

end Logs

/-! ## Entries -/

/-- A fact that can be dumped and ingested under a schema: its predicate is stored, key and
value are of its types, what they refer to is in the log, and no string is too long. -/
structure Schema.Restorable (schema : Schema) (log : List Fact) (f : Fact) (d : Definition) : Prop where
  defined : schema.get? f.predicate = some d
  stored : d.isDerived = false
  admits : d.Admits log f.key f.value
  key_short : f.key.Short
  value_short : f.value.Short

/-- An entry says what a fact is. -/
structure FactEntry.Describes (e : FactEntry) (d : Definition) (f : Fact) : Prop where
  label : e.label = some f.id.number
  key : d.key.Written f.key e.key
  value : (e.value = none ∧ d.value.zero? = some f.value ∧ f.value.references = []) ∨
    ∃ j, e.value = some j ∧ d.value.Written f.value j

/-- A type that the unit value is of is the unit type. -/
theorem Ty.eq_unit_of_conforms {ty : Ty} (h : ty.Conforms .unit) : ty = .unit := by
  cases ty with
  | record fields =>
      obtain ⟨vs, hvs, hall⟩ := conforms_record_iff.mp h
      cases hvs
      cases hall
      rfl
  | _ => simp [Conforms, check, Value.unit] at h

/-- A fact that can be dumped has an entry, which describes it. -/
theorem Schema.Restorable.exists_entry {schema : Schema} {log : List Fact} {f : Fact}
    {d : Definition} (hs : schema.Coherent) (h : schema.Restorable log f d) :
    ∃ e : FactEntry, schema.entryOf f = .ok (f.predicate.render, e) ∧ e.Describes d f := by
  obtain ⟨hkeyTy, hvalueTy⟩ := hs.types f.predicate d h.defined
  obtain ⟨j, hj⟩ := Ty.exists_written (hkeyTy.mono fun _ hty => hty.names) h.admits.key h.key_short
  cases hunit : f.value.isUnit with
  | true =>
      -- the unit value is left out
      have hvalue := Value.isUnit_iff.mp hunit
      have hty : d.value = .unit := Ty.eq_unit_of_conforms (hvalue ▸ h.admits.value)
      refine ⟨⟨some f.id.number, j, none⟩, ?_, rfl, hj, .inl ⟨rfl, ?_, ?_⟩⟩
      · rw [entryOf, h.defined]
        simp [FactEntry.ofFact, hj.toJson_eq, Fact.value?, hunit, bind, Except.bind, pure,
          Except.pure]
      · rw [hty, hvalue]
        rfl
      · rw [hvalue]
        rfl
  | false =>
      obtain ⟨w, hw⟩ :=
        Ty.exists_written (hvalueTy.mono fun _ hty => hty.names) h.admits.value h.value_short
      refine ⟨⟨some f.id.number, j, some w⟩, ?_, rfl, hj, .inr ⟨w, rfl, hw⟩⟩
      rw [entryOf, h.defined]
      simp [FactEntry.ofFact, hj.toJson_eq, hw.toJson_eq, Fact.value?, hunit, bind, Except.bind,
        pure, Except.pure]

/-! ## Staging an entry -/

namespace Staging

/-- Staging has come as far as a part of a log: the batch holds its facts, and the number of
each of them stands for it. -/
structure Mirrors (kept : Content → Prop) (s : Staging) (log : List Fact) : Prop where
  batch : s.batch.Prolongs kept []
  facts : s.batch.facts = log
  labels : ∀ l, s.labels.get? l =
    (log.reverse.find? (·.id.number = l)).map fun f => (f.id, f.predicate)

theorem labelled_of_get? {label : UInt64} {p actual : Predicate} {id : FactId} {s : Staging}
    (h : s.labels.get? label = some (id, actual)) (hname : actual.name = p.name) :
    labelled label p s = .ok (id, s) := by
  unfold labelled
  refine Outcome.stateT_bind_ok_iff.mpr ⟨s, s, rfl, ?_⟩
  rw [h]
  simp only [hname, if_true]
  rfl

/-- The reference to a fact is read as its number. -/
theorem readReference_toJson (schema : Schema) (insert : Insert) (depth : Nat) (id : FactId)
    (p : Predicate) (s : Staging) :
    readReference schema insert depth id.toJson p s = labelled id.number p s := by
  cases depth <;> rfl

theorem setLabel_ok {label : UInt64} {id : FactId} {p : Predicate} {s : Staging}
    (h : ∀ found ∈ s.labels.get? label, found.1 = id) :
    setLabel label id p s = .ok ((), { s with labels := s.labels.insert label (id, p) }) := by
  unfold setLabel
  refine Outcome.stateT_bind_ok_iff.mpr ⟨s, s, rfl, ?_⟩
  cases hget : s.labels.get? label with
  | none => rfl
  | some found =>
      obtain ⟨old, q⟩ := found
      obtain rfl : old = id := h (old, q) hget
      simp only [ne_eq, not_true_eq_false, if_false]
      rfl

namespace Mirrors

variable {kept : Content → Prop} {s : Staging} {log : List Fact}

/-- The number of a fact that is there stands for it. -/
theorem label_eq (h : s.Mirrors kept log) (hroom : log.length < 2 ^ 64 - 1024) {g : Fact}
    (hg : g ∈ log) : s.labels.get? g.id.number = some (g.id, g.predicate) := by
  obtain ⟨g', hfind⟩ : ∃ g', log.reverse.find? (·.id.number = g.id.number) = some g' := by
    rw [← Option.isSome_iff_exists, List.find?_isSome]
    exact ⟨g, List.mem_reverse.mpr hg, by simp⟩
  have hnumbered : Numbered log := by
    have := h.batch.distinguished.ordered.numbered
    rwa [List.nil_append, h.facts] at this
  have hmem : g' ∈ log := List.mem_reverse.mp (List.mem_of_find?_eq_some hfind)
  have hid : g'.id = g.id := FactId.ext_toNat (congrArg _ (by simpa using List.find?_some hfind))
  obtain rfl := hnumbered.id_inj hroom hmem hg hid
  rw [h.labels, hfind]
  rfl

/-- Numbers stand for facts with that number. -/
theorem label_number (h : s.Mirrors kept log) {l : UInt64} {id : FactId} {p : Predicate}
    (hl : s.labels.get? l = some (id, p)) : id.number = l := by
  rw [h.labels] at hl
  obtain ⟨g, hfind, heq⟩ := Option.map_eq_some_iff.mp hl
  cases heq
  simpa using List.find?_some hfind

/-- References to what is there are known. -/
theorem knows (h : s.Mirrors kept log) (hroom : log.length < 2 ^ 64 - 1024) {schema : Schema}
    {insert : Insert} {depth : Nat} {refs : List (Predicate × FactId)}
    (hrefs : ∀ e ∈ refs, HasTarget log e.1 e.2) :
    Ty.Knows (readReference schema insert depth) s refs := by
  rintro ⟨p, id⟩ he
  obtain ⟨g, hg, rfl, hname⟩ := hrefs _ he
  rw [readReference_toJson]
  exact labelled_of_get? (h.label_eq hroom hg) hname

variable {τ : Type} [FactStore τ] [LawfulFactStore τ] {t : τ}

open LawfulFactStore

omit [LawfulFactStore τ] in
/-- A fact is pushed that is new and refers to what is there. -/
theorem stage_new (hbuilding : FactStore.state t = .building) {b : FactBatch} {p : Predicate}
    {k v : Value} (hstore : FactStore.find t (contentDigest p k v) = none)
    (hbatch : b.find? (contentDigest p k v) = none)
    (hdangling : b.dangling? (k.references ++ v.references) = none) :
    FactStore.stage t b p k v = .ok (b.push (contentDigest p k v) p k v, b.next) := by
  unfold FactStore.stage
  simp [hbuilding, hstore, hbatch, hdangling]

/-- The next fact of the log is staged under its id. -/
theorem insert (h : s.Mirrors kept log) (hempty : Holds t []) (hbuilding : FactStore.state t = .building)
    {f : Fact} (hnext : Distinguished kept (log ++ [f])) :
    Staging.insert t f.predicate f.key f.value s =
      .ok (f.id, { s with batch := s.batch.push f.digest f.predicate f.key f.value }) ∧
    (s.batch.push f.digest f.predicate f.key f.value).Prolongs kept [] ∧
    (s.batch.push f.digest f.predicate f.key f.value).facts = log ++ [f] := by
  have hid : f.id = .nth log.length := hnext.ordered.numbered log.length f (by simp)
  have hnextId : s.batch.next = f.id := by
    rw [h.batch.next, hid, ← FactBatch.length_facts, h.facts, List.length_nil, Nat.zero_add]
  have hdigest : f.digest ∉ log.map Fact.digest := by
    have hnodup := hnext.digests
    rw [List.map_append, List.nodup_append] at hnodup
    exact fun hin => hnodup.2.2 _ hin _ (List.mem_singleton.mpr rfl) rfl
  have hfindBatch : s.batch.find? f.digest = none := by
    rw [FactBatch.find?, Option.map_eq_none_iff, List.find?_eq_none]
    intro e he heq
    refine hdigest (List.mem_map.mpr ⟨e.2, h.facts ▸ List.mem_map.mpr ⟨e, he, rfl⟩, ?_⟩)
    rw [← h.batch.digest e he]
    simpa using heq
  have hfindStore : FactStore.find t f.digest = none := by
    rw [find_eq hempty]
    rfl
  have hdangling : s.batch.dangling? f.references = none := by
    refine List.find?_eq_none.mpr fun r hr => ?_
    have hrefers := hnext.ordered.references f (by simp) r hr
    rw [hnextId]
    simpa [FactId.RefersTo] using hrefers
  refine ⟨?_, ?_, ?_⟩
  · have hstage := stage_new hbuilding hfindStore hfindBatch hdangling
    unfold Staging.insert
    rw [hstage, hnextId]
    rfl
  · exact h.batch.push (hnext.kept f (by simp)) (by simp) hfindBatch hdangling
  · rw [FactBatch.facts_push, h.facts, hnextId]

/-- Defining what an entry says of the next fact brings staging one fact further. -/
theorem define (h : s.Mirrors kept log) (hempty : Holds t []) (hbuilding : FactStore.state t = .building)
    {f : Fact} (hnext : Distinguished kept (log ++ [f])) {read : ReadReference Staging}
    {d : Definition} {e : FactEntry} (he : e.Describes d f) (hpred : d.predicate = f.predicate)
    (hknows : Ty.Knows read s (d.key.positions f.key ++ d.value.positions f.value)) :
    ∃ s', Staging.define (Staging.insert t) read d e.label e.key e.value s = .ok (f.id, s') ∧
      s'.Mirrors kept (log ++ [f]) := by
  obtain ⟨hkey, hvalue⟩ := List.forall_mem_append.mp hknows
  obtain ⟨hinsert, hbatch, hfacts⟩ := h.insert hempty hbuilding hnext
  let b := s.batch.push f.digest f.predicate f.key f.value
  let s' : Staging := ⟨b, s.labels.insert f.id.number (f.id, f.predicate)⟩
  have hlabel : setLabel f.id.number f.id f.predicate { s with batch := b } = .ok ((), s') :=
    setLabel_ok fun found hfound => FactId.ext_toNat (congrArg _ (h.label_number hfound))
  have hlabels : ∀ l, s'.labels.get? l =
      ((log ++ [f]).reverse.find? (·.id.number = l)).map fun f => (f.id, f.predicate) := by
    intro l
    rw [SortedMap.get?_insert, h.labels, List.reverse_append, List.reverse_singleton,
      List.singleton_append, List.find?_cons]
    by_cases hl : l = f.id.number
    · simp [hl]
    · simp [hl, Ne.symm hl]
  refine ⟨s', ?_, hbatch, hfacts, hlabels⟩
  -- the key and the value are read, the fact is staged and its number set, in this order
  unfold Staging.define
  refine Outcome.stateT_bind_ok_iff.mpr ⟨f.key, s, he.key.decode hkey [], ?_⟩
  have hend : putLabelled (Staging.insert t) d.predicate e.label f.key f.value s =
      .ok (f.id, s') := by
    rw [hpred, he.label]
    refine Outcome.stateT_bind_ok_iff.mpr ⟨f.id, _, hinsert, ?_⟩
    exact Outcome.stateT_bind_ok_iff.mpr ⟨(), s', hlabel, rfl⟩
  rcases he.value with ⟨hnone, hzero, -⟩ | ⟨j, hsome, hwritten⟩
  · rw [hnone, hzero]
    exact Outcome.stateT_bind_ok_iff.mpr ⟨f.value, s, rfl, hend⟩
  · rw [hsome]
    exact Outcome.stateT_bind_ok_iff.mpr ⟨f.value, s, hwritten.decode hvalue [], hend⟩

/-- Staging the entry of the next fact of a log brings staging one fact further. -/
theorem entry {schema : Schema} {whole rest : List Fact} {f : Fact} (h : s.Mirrors kept log)
    (hs : schema.Coherent) (hempty : Holds t []) (hbuilding : FactStore.state t = .building)
    (hwhole : whole = log ++ f :: rest) (hroom : whole.length < 2 ^ 64 - 1024)
    (hdistinguished : Distinguished kept whole) {d : Definition} (hf : schema.Restorable whole f d)
    {e : FactEntry} (he : e.Describes d f) :
    ∃ s', Staging.entry schema (Staging.insert t) d e s = .ok (f.id, s') ∧
      s'.Mirrors kept (log ++ [f]) := by
  have hsplit : whole = (log ++ [f]) ++ rest := by simp [hwhole]
  have hnext : Distinguished kept (log ++ [f]) := (hsplit ▸ hdistinguished).of_append
  have hlen : log.length < 2 ^ 64 - 1024 := by
    rw [hwhole, List.length_append] at hroom
    omega
  -- a reference goes to a fact before this one
  have htargets : ∀ r ∈ d.key.positions f.key ++ d.value.positions f.value,
      HasTarget log r.1 r.2 := by
    rintro ⟨p, id⟩ hr
    obtain ⟨g, hg, rfl, hname⟩ := hf.admits.targets _ hr
    have hrefers : f.id.RefersTo g.id := by
      refine hnext.ordered.references f (by simp) g.id ?_
      rw [Fact.references, Ty.references_eq_positions hf.admits.key,
        Ty.references_eq_positions hf.admits.value, ← List.map_append]
      exact List.mem_map.mpr ⟨(p, g.id), hr, rfl⟩
    obtain ⟨m, -, hgm, hgid⟩ := hdistinguished.ordered.numbered.mem_id hg
    have hlt : m < log.length := by
      have hnumber := hrefers.2
      rwa [hgid, hnext.ordered.numbered log.length f (by simp), FactId.nth_lt_nth hlen] at hnumber
    rw [hwhole, List.getElem?_append_left hlt] at hgm
    exact ⟨g, List.mem_of_getElem? hgm, rfl, hname⟩
  exact h.define hempty hbuilding hnext he (hs.named _ d hf.defined) (h.knows hlen htargets)

end Mirrors

/-! ## Staging groups -/

/-- Entries that can be staged one by one, each under the definition that its text names. -/
inductive Runs (schema : Schema) (insert : Insert) :
    Staging → List (String × FactEntry) → Staging → Prop
  | nil {s : Staging} : Runs schema insert s [] s
  | cons {s t u : Staging} {text : String} {e : FactEntry} {es : List (String × FactEntry)}
    {d : Definition} {id : FactId} (hd : FactFile.definitionOf schema text = .ok d)
    (he : entry schema insert d e s = .ok (id, t)) (hes : Runs schema insert t es u) :
    Runs schema insert s ((text, e) :: es) u

end Staging

namespace FactFile

variable {schema : Schema} {insert : Staging.Insert}

/-- Where entries can be staged does not depend on their numbers. -/
theorem stageEntries_number {d : Definition} {es : List FactEntry} {n : Nat} {s s' : Staging}
    (h : stageEntries schema insert d n es s = .ok s') (m : Nat) :
    stageEntries schema insert d m es s = .ok s' := by
  induction es generalizing n m s with
  | nil => exact h
  | cons e es ih =>
      rw [stageEntries] at h ⊢
      split at h
      · exact ih h (m + 1)
      · cases h

theorem stageGroups_cons {g : FactGroup} {gs : List FactGroup} {s s' : Staging} :
    stageGroups schema insert (g :: gs) s = .ok s' ↔
      ∃ d t, definitionOf schema g.predicate = .ok d ∧
        stageEntries schema insert d 0 g.facts s = .ok t ∧
        stageGroups schema insert gs t = .ok s' := by
  simp only [stageGroups, List.foldlM_cons, Outcome.bind_ok_iff]
  exact ⟨fun ⟨t, ⟨d, hd, ht⟩, h⟩ => ⟨d, t, hd, ht, h⟩, fun ⟨d, t, hd, ht, h⟩ => ⟨t, ⟨d, hd, ht⟩, h⟩⟩

/-- Entries can be staged as groups when they can be staged one by one. -/
theorem stageGroups_ofEntries {s s' : Staging} {es : List (String × FactEntry)}
    (h : Staging.Runs schema insert s es s') :
    stageGroups schema insert (FactGroup.ofEntries es) s = .ok s' := by
  induction h with
  | nil => rfl
  | @cons s t u text e es d id hd he _ ih =>
      have hone : ∀ {facts : List FactEntry} {v : Staging},
          stageEntries schema insert d 0 facts t = .ok v →
          stageEntries schema insert d 0 (e :: facts) s = .ok v := by
        intro facts v hfacts
        rw [stageEntries, he]
        exact stageEntries_number hfacts 1
      rw [FactGroup.ofEntries, List.foldr_cons, ← FactGroup.ofEntries]
      cases hgroups : FactGroup.ofEntries es with
      | nil =>
          rw [hgroups] at ih
          exact stageGroups_cons.mpr ⟨d, t, hd, hone rfl, ih⟩
      | cons g gs =>
          rw [hgroups] at ih
          rw [FactGroup.cons]
          split
          · -- the entry joins the group behind it
            rename_i hsame
            obtain ⟨d', v, hd', hv, hgs⟩ := stageGroups_cons.mp ih
            rw [hsame, hd] at hd'
            cases hd'
            exact stageGroups_cons.mpr ⟨d, v, hsame ▸ hd, hone hv, hgs⟩
          · exact stageGroups_cons.mpr ⟨d, t, hd, hone rfl, ih⟩

end FactFile

/-! ## Whole logs -/

section Logs

variable {kept : Content → Prop} {schema : Schema} {whole : List Fact}
variable {τ : Type} [FactStore τ] [LawfulFactStore τ] {t : τ}

open LawfulFactStore

/-- The entries of the rest of a log can be staged where its beginning was. -/
theorem Staging.Mirrors.runs (hs : schema.Coherent) (hnames : schema.NamesAll)
    (hempty : Holds t []) (hbuilding : FactStore.state t = .building)
    (hroom : whole.length < 2 ^ 64 - 1024) (hdistinguished : Distinguished kept whole)
    (hall : ∀ f ∈ whole, ∃ d, schema.Restorable whole f d) {s : Staging} {log rest : List Fact}
    (h : s.Mirrors kept log) (hwhole : whole = log ++ rest) :
    ∃ es s', rest.mapM schema.entryOf = .ok es ∧
      Runs schema (Staging.insert t) s es s' ∧ s'.Mirrors kept whole := by
  induction rest generalizing s log with
  | nil => exact ⟨[], s, rfl, .nil, by simpa [hwhole] using h⟩
  | cons f rest ih =>
      obtain ⟨d, hf⟩ := hall f (by simp [hwhole])
      obtain ⟨e, hentry, he⟩ := hf.exists_entry hs
      obtain ⟨u, hu, hmirrors⟩ := h.entry hs hempty hbuilding hwhole hroom hdistinguished hf he
      obtain ⟨es, s', hes, hruns, hend⟩ := ih hmirrors (by simp [hwhole])
      refine ⟨(f.predicate.render, e) :: es, s', ?_, ?_, hend⟩
      · rw [List.mapM_cons, hentry, hes]
        rfl
      · exact .cons (FactFile.definitionOf_render hnames hf.defined hf.stored) hu hruns

/-- The entries of a log, staged as groups for an empty store, give a batch of its facts. -/
theorem stage_entries (hschema : schema.Registered) (hempty : Holds t [])
    (hbuilding : FactStore.state t = .building) (hroom : whole.length < 2 ^ 64 - 1024)
    (hdistinguished : Distinguished kept whole)
    (hall : ∀ f ∈ whole, ∃ d, schema.Restorable whole f d) :
    ∃ es, whole.mapM schema.entryOf = .ok es ∧ ∀ name, ∃ b,
      FactFile.stage ⟨name, FactGroup.ofEntries es⟩ schema t = .ok b ∧
      b.Prolongs kept [] ∧ b.facts = whole := by
  have hstart : Staging.Mirrors kept ⟨FactStore.newBatch t, ∅⟩ [] := by
    refine ⟨?_, rfl, fun l => rfl⟩
    rw [FactStore.newBatch, nextId_eq hempty]
    exact .startingAt .nil
  obtain ⟨es, s', hes, hruns, hend⟩ := hstart.runs hschema.coherent hschema.namesAll hempty hbuilding
    hroom hdistinguished hall (List.nil_append _).symm
  refine ⟨es, hes, fun name => ⟨s'.batch, ?_, hend.batch, hend.facts⟩⟩
  rw [FactFile.stage, FactFile.stageBy, FactFile.stageGroups_ofEntries hruns]
  rfl

end Logs

/-! ## Stores -/

section Stores

variable {σ τ : Type} [FactStore σ] [LawfulFactStore σ] [FactStore τ] [LawfulFactStore τ]

open LawfulFactStore

/-- A log that can be restored is dumped by any store that holds it, and the dump, staged for
an empty store and committed, makes that store hold it too. -/
theorem restore_log {schema : Schema} (hschema : schema.Registered) {s : σ} {log : List Fact}
    (hholds : Holds s log) (hroom : log.length < 2 ^ 64 - 1024)
    (hdistinguished : Distinguished (Keeps τ) log)
    (hall : ∀ f ∈ log, ∃ d, schema.Restorable log f d) {t : τ} (hempty : Holds t [])
    (hbuilding : FactStore.state t = .building) :
    ∃ groups, FactStore.dump s schema = .ok groups ∧ ∀ name, ∃ b t',
      FactFile.stage ⟨name, groups⟩ schema t = .ok b ∧ FactStore.commit t b = .ok t' ∧
      Holds t' log := by
  obtain ⟨es, hes, hstage⟩ := stage_entries hschema hempty hbuilding hroom hdistinguished hall
  refine ⟨FactGroup.ofEntries es, ?_, fun name => ?_⟩
  · rw [dump_eq schema hholds hroom, hes]
    rfl
  · obtain ⟨b, hb, hprolongs, hfacts⟩ := hstage name
    have hcheck : b.checkCommit (FactStore.nextId t) (FactStore.state t) = .ok () :=
      FactBatch.checkCommit_ok_iff.mpr ⟨hbuilding, by rw [hprolongs.base, nextId_eq hempty]⟩
    obtain ⟨t', ht', hholds', -, -⟩ := commit_ok hempty hprolongs.from_length
      (fun f hf => hprolongs.distinguished.kept f (List.mem_append_right _ hf)) hcheck
    rw [List.nil_append, hfacts] at hholds'
    exact ⟨b, t', hb, ht', hholds'⟩

/-- Any store that operations lead to, all of whose facts can be dumped under a registered
schema, has a dump; and staging the dump under that schema for an empty store and committing
it gives a store with the same facts under the same ids, the same statistics and the same
dump. -/
theorem StoreSession.dump_restores {schema : Schema} (hschema : schema.Registered)
    (ops : List StoreOp) (hkept : ∀ op ∈ ops, ∀ c ∈ op.content?, Keeps σ c)
    (hroom : FactStore.size ((new : StoreSession σ).run ops).store < 2 ^ 64 - 1024)
    (hall : ∀ f ∈ FactStore.committed ((new : StoreSession σ).run ops).store, ∃ d,
      schema.Restorable (FactStore.committed ((new : StoreSession σ).run ops).store) f d)
    {t : τ} (hempty : Holds t []) (hbuilding : FactStore.state t = .building)
    (hkept' : ∀ f ∈ FactStore.committed ((new : StoreSession σ).run ops).store,
      Keeps τ f.content) :
    ∃ groups, FactStore.dump ((new : StoreSession σ).run ops).store schema = .ok groups ∧
      ∀ name, ∃ b t', FactFile.stage ⟨name, groups⟩ schema t = .ok b ∧
        FactStore.commit t b = .ok t' ∧
        FactStore.nextId t' = FactStore.nextId ((new : StoreSession σ).run ops).store ∧
        (∀ id, FactStore.lookup t' id =
          FactStore.lookup ((new : StoreSession σ).run ops).store id) ∧
        FactStore.statistics t' = FactStore.statistics ((new : StoreSession σ).run ops).store ∧
        FactStore.dump t' schema = .ok groups := by
  obtain ⟨hholds, hlog, -⟩ := run_apart ops hkept hroom
  generalize ((new : StoreSession σ).run ops).store = s at *
  have hlen : (FactStore.committed s).length < 2 ^ 64 - 1024 := by
    have := size_eq hholds
    omega
  have hdistinguished : Distinguished (Keeps τ) (FactStore.committed s) :=
    ⟨hlog.ordered, hlog.digests, hkept'⟩
  obtain ⟨groups, hdump, hrestore⟩ :=
    restore_log hschema hholds hlen hdistinguished hall hempty hbuilding
  refine ⟨groups, hdump, fun name => ?_⟩
  obtain ⟨b, t', hstage, hcommit, hholds'⟩ := hrestore name
  refine ⟨b, t', hstage, hcommit, ?_, fun id => ?_, ?_, ?_⟩
  · rw [nextId_eq hholds', nextId_eq hholds]
  · rw [lookup_eq hholds', lookup_eq hholds]
  · rw [statistics_eq hholds', statistics_eq hholds]
  · rw [dump_eq schema hholds' hlen, ← dump_eq schema hholds hlen, hdump]

end Stores

/-! ## A shop -/

/-- Items, sales of items, and how a sale was paid. -/
def shopText : String :=
  "schema shop.1 \x7b predicate Item : string predicate Sale : \x7b item : Item, count : nat = 1 \x7d predicate Paid : Sale -> \x7b cash : \x7b\x7d | card : string \x7d \x7d"

def shopSchema : Schema := (Schema.ofText shopText).toOption.getD .builtin

theorem shopSchema_registered : shopSchema.Registered := Schema.registered_ofText_getD shopText

/-- A shop that sold tea twice, of which one sale is entered a second time, in a store that
is sealed afterwards. -/
def shopSales : List StoreOp :=
  [.insert ⟨"shop.Item", 1⟩ (.string "tea") .unit,
    .insert ⟨"shop.Sale", 1⟩ (.record [.fact ⟨1024⟩, .nat 2]) .unit,
    .insert ⟨"shop.Paid", 1⟩ (.fact ⟨1025⟩) (.alt 1 (.string "visa")),
    .insert ⟨"shop.Sale", 1⟩ (.record [.fact ⟨1024⟩, .nat 1]) .unit,
    .insert ⟨"shop.Sale", 1⟩ (.record [.fact ⟨1024⟩, .nat 2]) .unit, .setState .complete]

instance (d : Definition) (log : List Fact) (k v : Value) : Decidable (d.Admits log k v) :=
  decidable_of_iff (d.key.Conforms k ∧ d.value.Conforms v ∧
      ∀ e ∈ d.key.positions k ++ d.value.positions v,
        ∃ g ∈ log, g.id = e.2 ∧ g.predicate.name = e.1.name)
    ⟨fun ⟨hk, hv, ht⟩ => ⟨hk, hv, ht⟩, fun h => ⟨h.key, h.value, h.targets⟩⟩

instance (schema : Schema) (log : List Fact) (f : Fact) (d : Definition) :
    Decidable (schema.Restorable log f d) :=
  decidable_of_iff (schema.get? f.predicate = some d ∧ d.isDerived = false ∧
      d.Admits log f.key f.value ∧ f.key.Short ∧ f.value.Short)
    ⟨fun ⟨hd, hs, ha, hk, hv⟩ => ⟨hd, hs, ha, hk, hv⟩,
      fun h => ⟨h.defined, h.stored, h.admits, h.key_short, h.value_short⟩⟩

example : (FactStore.committed ((StoreSession.new : StoreSession MemoryStore).run shopSales).store).length = 4 := by
  decide +kernel

theorem StoreSession.dump_restores_shopSales :
    let store := ((new : StoreSession MemoryStore).run shopSales).store
    ∃ groups, FactStore.dump store shopSchema = .ok groups ∧
      ∀ name, ∃ b t', FactFile.stage ⟨name, groups⟩ shopSchema MemoryStore.empty = .ok b ∧
        FactStore.commit MemoryStore.empty b = .ok t' ∧
        FactStore.nextId t' = FactStore.nextId store ∧
        (∀ id, FactStore.lookup t' id = FactStore.lookup store id) ∧
        FactStore.statistics t' = FactStore.statistics store ∧
        FactStore.dump t' shopSchema = .ok groups := by
  have hall : ∀ f ∈ FactStore.committed ((new : StoreSession MemoryStore).run shopSales).store,
      ∃ d ∈ shopSchema.predicates.values, shopSchema.Restorable
        (FactStore.committed ((new : StoreSession MemoryStore).run shopSales).store) f d := by
    decide +kernel
  exact dump_restores shopSchema_registered shopSales (fun _ _ _ _ => trivial) (by decide +kernel)
    (fun f hf => (hall f hf).imp fun _ => And.right) LawfulFactStore.holds_empty rfl
    fun _ _ => trivial

end Factbase
