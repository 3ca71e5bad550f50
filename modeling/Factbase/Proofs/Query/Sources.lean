import Factbase.Proofs.Query.Gathering
import Factbase.Proofs.Query.Matching
import Factbase.Proofs.Schema.Conversions
import Factbase.Proofs.Schema.Registered
import Factbase.Proofs.Store.Sessions

/-!
# What queries read

A query reads the facts of a log through the conversions between two
schemas, and besides them the facts that it has derived itself
(`World.Good`). Whatever is read fits the schema of the query
(`Reading.Over.look_sound`).

The machine looks at some of the stored facts only, and may look at one
twice: it finds them by their predicates (`Reading.On.scan_eq`), or by a
digest of their key. What it leaves out would not have been kept
(`gather_scan`, `gather_seek`).
-/

namespace Factbase

variable {σ : Type}

/-! ## Searches -/

/-- Parts of a list that different values of a function select, put together. -/
theorem flatMap_filter_perm {α β : Type} [DecidableEq β] (g : α → β) (keep : α → Bool) (l : List α)
    {qs : List β} (hqs : qs.Nodup) :
    (qs.flatMap fun q => l.filter fun a => g a = q && keep a).Perm
      (l.filter fun a => g a ∈ qs && keep a) := by
  induction qs with
  | nil => simp
  | cons q qs ih =>
      obtain ⟨hq, hqs⟩ := List.nodup_cons.mp hqs
      rw [List.flatMap_cons]
      refine ((ih hqs).append_left _).trans ?_
      have hsplit := List.filter_append_perm (fun a => decide (g a = q))
        (l.filter fun a => g a ∈ q :: qs && keep a)
      rw [List.filter_filter, List.filter_filter] at hsplit
      have hleft : (l.filter fun a => decide (g a = q) && (decide (g a ∈ q :: qs) && keep a)) =
          l.filter fun a => g a = q && keep a := by
        refine List.filter_congr fun a _ => ?_
        by_cases h : g a = q <;> simp [h]
      have hright : (l.filter fun a => !decide (g a = q) && (decide (g a ∈ q :: qs) && keep a)) =
          l.filter fun a => g a ∈ qs && keep a := by
        refine List.filter_congr fun a _ => ?_
        by_cases h : g a = q
        · simp [h, hq]
        · simp [h]
      rwa [hleft, hright] at hsplit

namespace Reading

theorem sortIds_pairwise (ids : List FactId) :
    (sortIds ids).Pairwise (·.number.toNat ≤ ·.number.toNat) := by
  have hsorted : (sortIds ids).Pairwise fun a b => decide (a.number ≤ b.number) = true := by
    refine List.pairwise_mergeSort (fun a b c hab hbc => ?_) (fun a b => ?_) ids
    · simp only [decide_eq_true_eq, UInt64.le_iff_toNat_le] at *
      omega
    · simp only [Bool.or_eq_true, decide_eq_true_eq, UInt64.le_iff_toNat_le]
      omega
  refine hsorted.imp fun hle => ?_
  simpa [UInt64.le_iff_toNat_le] using hle

theorem mem_sortIds {ids : List FactId} {id : FactId} : id ∈ sortIds ids ↔ id ∈ ids :=
  List.mem_mergeSort

/-- Conversions that are used fail where they cannot be prepared, in the same way. -/
theorem mapM_conversion (r : Reading σ) (search : Predicate → FactConversion → List FactId) (p : Predicate)
    (sources : List Predicate) :
    (∃ found, (sources.mapM fun q => search q <$> r.conversion q p) = .ok found ∧
      (sources.forM fun q => discard (r.conversion q p)) = .ok ()) ∨
    ∃ x, (sources.mapM fun q => search q <$> r.conversion q p) = .error x ∧
      (sources.forM fun q => discard (r.conversion q p)) = .error x := by
  induction sources with
  | nil => exact .inl ⟨[], rfl, rfl⟩
  | cons q sources ih =>
      rw [List.mapM_cons, List.forM]
      cases r.conversion q p with
      | error x => exact .inr ⟨x, rfl, rfl⟩
      | ok c =>
          rcases ih with ⟨found, hfound, hprepared⟩ | ⟨x, hfound, hprepared⟩
          · exact .inl ⟨search q c :: found, by rw [hfound]; rfl, hprepared⟩
          · exact .inr ⟨x, by rw [hfound]; rfl, hprepared⟩

/-- A search by a key fails where the facts of the predicate cannot be read. -/
theorem seek_cases [FactStore σ] (r : Reading σ) (p : Predicate) (key : Value) :
    (∃ ids, r.seek p key = .ok ids ∧ r.prepare p = .ok ()) ∨
    ∃ x, r.seek p key = .error x ∧ r.prepare p = .error x := by
  have hseek : r.seek p key = (fun found => sortIds found.flatten) <$>
      (r.sources p).mapM fun q => (fun c => if c.key.isIdentity then FactStore.seek r.store q key
        else FactStore.scan r.store q) <$> r.conversion q p := by
    rw [seek, map_eq_pure_bind]
    refine congrArg (· >>= _) (congrArg (List.mapM · (r.sources p)) (funext fun q => ?_))
    rw [map_eq_pure_bind]
  rw [hseek, prepare]
  rcases r.mapM_conversion _ p (r.sources p) with ⟨found, hfound, hprepared⟩ | ⟨x, hfound, hprepared⟩
  · exact .inl ⟨_, by rw [hfound]; rfl, hprepared⟩
  · exact .inr ⟨x, by rw [hfound]; rfl, hprepared⟩

/-! ## Conversions of facts -/

/-- Facts are converted by the types of their definitions, except for those that are read in
stored mode as what they are. -/
theorem conversion_cases {r : Reading σ} {q p : Predicate} {c : FactConversion}
    (h : r.conversion q p = .ok c) :
    r.mode = .stored ∧ q = p ∧ c = ⟨.identity, .identity⟩ ∨
    ∃ old new, r.stored.get? q = some old ∧ r.target.get? p = some new ∧
      Conversion.between old.key new.key = .ok c.key ∧
      Conversion.between old.value new.value = .ok c.value := by
  unfold conversion at h
  split at h
  · rename_i hstored
    cases h
    exact .inl ⟨hstored.1, hstored.2, rfl⟩
  · cases hold : r.stored.get? q with
    | none =>
        rw [hold] at h
        cases h
    | some old =>
        cases hnew : r.target.get? p with
        | none =>
            rw [hold, hnew] at h
            cases h
        | some new =>
            rw [hold, hnew] at h
            obtain ⟨ck, hck, h⟩ := Outcome.bind_ok_iff.mp h
            obtain ⟨cv, hcv, h⟩ := Outcome.bind_ok_iff.mp h
            cases h
            exact .inr ⟨old, new, rfl, rfl, Outcome.mapError_ok_iff.mp hck,
              Outcome.mapError_ok_iff.mp hcv⟩

theorem convert_ok_iff {r : Reading σ} {f g : Fact} {p : Predicate} :
    r.convert f p = .ok g ↔ ∃ c k v, r.conversion f.predicate p = .ok c ∧
      c.key.apply f.key = .ok k ∧ c.value.apply f.value = .ok v ∧ g = ⟨f.id, p, k, v⟩ := by
  constructor
  · intro h
    obtain ⟨c, hc, h⟩ := Outcome.bind_ok_iff.mp h
    obtain ⟨k, hk, h⟩ := Outcome.bind_ok_iff.mp h
    obtain ⟨v, hv, h⟩ := Outcome.bind_ok_iff.mp h
    cases h
    exact ⟨c, k, v, hc, Outcome.mapError_ok_iff.mp hk, Outcome.mapError_ok_iff.mp hv, rfl⟩
  · rintro ⟨c, k, v, hc, hk, hv, rfl⟩
    rw [convert, hc]
    show (orTypeError (c.key.apply f.key) >>= _) = _
    rw [hk]
    show (orTypeError (c.value.apply f.value) >>= _) = _
    rw [hv]
    rfl

end Reading

/-! ## What there is to read -/

theorem LawfulFactStore.predicates_nodup [FactStore σ] [LawfulFactStore σ] {store : σ} {log : List Fact}
    (h : Holds store log) : (FactStore.predicates store).Nodup := by
  rw [predicates_eq h]
  exact (SortedMap.keys_pairwise _).imp fun hlt heq => by
    subst heq
    simp at hlt

variable [FactStore σ] [LawfulFactStore σ] {met : Content → Prop} {r : Reading σ} {log : List Fact}
variable {w : World}

/-- A reading of a store that holds the facts of a log, which fit the schema that they are
stored under. -/
structure Reading.On (r : Reading σ) (log : List Fact) : Prop where
  holds : LawfulFactStore.Holds r.store log
  room : log.length < 2 ^ 64 - 1024
  fits : ∀ f ∈ log, r.stored.Fits f

/-- Such a reading of a sound log, under a coherent schema that in stored mode is the one of the
store. -/
structure Reading.Over (met : Content → Prop) (r : Reading σ) (log : List Fact) : Prop where
  holds : LawfulFactStore.Holds r.store log
  sound : Sound met log
  room : log.length < 2 ^ 64 - 1024
  fits : ∀ f ∈ log, r.stored.Fits f
  coherent : r.target.Coherent
  narrow : r.target.Narrow
  same : r.mode = .stored → r.target = r.stored

theorem Reading.Over.on (h : r.Over met log) : r.On log := ⟨h.holds, h.room, h.fits⟩

/-- The ids of derived facts are not below the one that a store goes on with. -/
structure World.Clear (store : σ) (w : World) : Prop where
  overlay : ∀ id f, w.overlay.get? id = some f → (FactStore.nextId store).number ≤ id.number
  next : (FactStore.nextId store).number ≤ w.next.number

/-- Derived facts have ids of their own and fit the schema of the query, and what was
computed for a predicate are facts of it. -/
structure World.Good (r : Reading σ) (w : World) : Prop where
  facts : ∀ id f, w.overlay.get? id = some f → f.id = id ∧ r.target.Fits f
  ids : ∀ id f, w.overlay.get? id = some f →
    (FactStore.nextId r.store).number ≤ id.number ∧ id.number < w.next.number
  next : (FactStore.nextId r.store).number ≤ w.next.number
  memo : ∀ p ids, w.derived.get? p = some ids →
    ∀ id ∈ ids, ∃ f, w.overlay.get? id = some f ∧ f.predicate = p

omit [LawfulFactStore σ] in
theorem World.Good.clear (hw : w.Good r) : w.Clear r.store where
  overlay id f hf := (hw.ids id f hf).1
  next := hw.next

namespace Reading.On

/-! ## Stored facts -/

variable (h : r.On log)

include h

theorem lookup_iff {id : FactId} {f : Fact} :
    FactStore.lookup r.store id = some f ↔ f ∈ log ∧ f.id = id :=
  lookup_eq_some_iff h.holds h.room

theorem mem_ids_iff {id : FactId} : id ∈ FactStore.ids r.store ↔ ∃ f ∈ log, f.id = id := by
  rw [ids_eq_map h.holds h.room, List.mem_map]

/-- Facts stand in the log in the order of their ids, as numbers. -/
theorem pairwise : log.Pairwise (·.id.number.toNat ≤ ·.id.number.toNat) :=
  ((LawfulFactStore.numbered h.holds).pairwise h.room).imp fun hlt =>
    Nat.le_of_lt (UInt64.lt_iff_toNat_lt.mp hlt)

theorem ids_pairwise :
    (FactStore.ids r.store).Pairwise (·.number.toNat ≤ ·.number.toNat) := by
  rw [ids_eq_map h.holds h.room, List.pairwise_map]
  exact h.pairwise

/-- Stored facts have ids below those of derived facts. -/
theorem overlay_none (hw : w.Clear r.store) {f : Fact} (hf : f ∈ log) :
    w.overlay.get? f.id = none := by
  cases hget : w.overlay.get? f.id with
  | none => rfl
  | some g =>
      have hge := hw.overlay f.id g hget
      have hlt := ((lookup_isSome_iff h.holds h.room f.id).mp
        (Option.isSome_iff_exists.mpr ⟨f, h.lookup_iff.mpr ⟨hf, rfl⟩⟩)).2
      rw [UInt64.le_iff_toNat_le] at hge
      rw [UInt64.lt_iff_toNat_lt] at hlt
      omega

/-- A stored fact is read by converting it. -/
theorem read_eq (hw : w.Clear r.store) {f : Fact} (hf : f ∈ log) (p : Predicate) :
    r.read w.overlay f.id p =
      if r.readable f.predicate p then some <$> r.convert f p else .ok none := by
  rw [read, h.overlay_none hw hf, h.lookup_iff.mpr ⟨hf, rfl⟩]
  rfl

/-- A conversion that could be prepared applies to the facts of its predicate. -/
theorem convert_ok {f : Fact} (hf : f ∈ log) {p : Predicate} {c : FactConversion}
    (hc : r.conversion f.predicate p = .ok c) :
    ∃ g, r.convert f p = .ok g ∧ g.id = f.id ∧ g.predicate = p ∧
      (c.key.isIdentity = true → g.key = f.key) := by
  obtain ⟨old, hold, hkey, hvalue⟩ := h.fits f hf
  obtain ⟨k, v, hk, hv⟩ : ∃ k v, c.key.apply f.key = .ok k ∧ c.value.apply f.value = .ok v := by
    rcases conversion_cases hc with ⟨-, -, rfl⟩ | ⟨_, new, hold', -, hck, hcv⟩
    · exact ⟨f.key, f.value, Conversion.apply_identity _, Conversion.apply_identity _⟩
    · cases hold.symm.trans hold'
      obtain ⟨k, hk, -⟩ := Conversion.between_applies new.key old.key c.key hck f.key hkey
      obtain ⟨v, hv, -⟩ := Conversion.between_applies new.value old.value c.value hcv f.value hvalue
      exact ⟨k, v, hk, hv⟩
  refine ⟨_, convert_ok_iff.mpr ⟨c, k, v, hc, hk, hv, rfl⟩, rfl, rfl, fun hidentity => ?_⟩
  rw [Conversion.isIdentity_iff.mp hidentity, Conversion.apply_identity] at hk
  exact (Except.ok.inj hk).symm

/-! ## Searches through the facts -/

theorem sources_nodup (p : Predicate) : (r.sources p).Nodup := by
  unfold sources
  cases r.mode with
  | stored => exact List.nodup_singleton p
  | current => exact (LawfulFactStore.predicates_nodup h.holds).filter _

/-- The sources of a predicate that has facts are those that are read as facts of it. -/
theorem mem_sources_iff {f : Fact} (hf : f ∈ log) {p : Predicate} :
    f.predicate ∈ r.sources p ↔ r.readable f.predicate p = true := by
  unfold sources
  cases hmode : r.mode with
  | stored => simp [readable, hmode]
  | current =>
      have hthere : f.predicate ∈ FactStore.predicates r.store := by
        rw [LawfulFactStore.predicates_eq h.holds, FactIndex.mem_predicates_ofFacts]
        exact ⟨f, hf, rfl⟩
      simp [hthere]

/-- What the sources of a predicate are searched for, in the order of ids. -/
theorem sortIds_flatMap {p : Predicate} {find : Predicate → List FactId} {keep : Fact → Bool}
    (hfind : ∀ q ∈ r.sources p, find q =
      (log.filter fun f => f.predicate = q && keep f).map (·.id)) :
    sortIds ((r.sources p).flatMap find) =
      (log.filter fun f => r.readable f.predicate p && keep f).map (·.id) := by
  have hperm : (sortIds ((r.sources p).flatMap find)).Perm
      ((log.filter fun f => r.readable f.predicate p && keep f).map (·.id)) := by
    refine (List.mergeSort_perm _ _).trans ?_
    rw [List.flatMap_congr hfind, ← List.map_flatMap]
    refine ((flatMap_filter_perm (·.predicate) keep log (h.sources_nodup p)).map (·.id)).trans ?_
    rw [List.filter_congr fun f hf => by
      rw [Bool.eq_iff_iff.mpr (decide_eq_true_iff.trans (h.mem_sources_iff hf))]]
  have hsorted : ((log.filter fun f => r.readable f.predicate p && keep f).map (·.id)).Pairwise
      (·.number.toNat ≤ ·.number.toNat) := by
    rw [List.pairwise_map]
    exact List.Pairwise.filter _ h.pairwise
  exact hperm.eq_of_pairwise (fun a b _ _ hab hba => FactId.ext_toNat (Nat.le_antisymm hab hba))
    (sortIds_pairwise _) hsorted

/-- A scan gives all facts that are read as facts of a predicate. -/
theorem scan_eq (p : Predicate) :
    r.scan p = (log.filter fun f => r.readable f.predicate p).map (·.id) := by
  have hfind : ∀ q ∈ r.sources p, FactStore.scan r.store q =
      (log.filter fun f => f.predicate = q && true).map (·.id) := fun q _ => by
    rw [LawfulFactStore.scan_eq h.holds, FactIndex.scan_ofFacts]
    simp only [Bool.and_true]
  have hscan := h.sortIds_flatMap hfind
  simp only [Bool.and_true] at hscan
  exact hscan

/-- What the machine finds by a key: facts of the log, and among them all those that are
read as facts of the predicate and then have the key. -/
theorem seek_ok {p : Predicate} {key : Value} {ids : List FactId} (hseek : r.seek p key = .ok ids) :
    ids.Pairwise (·.number.toNat ≤ ·.number.toNat) ∧ (∀ id ∈ ids, id ∈ FactStore.ids r.store) ∧
      ∀ f ∈ log, r.readable f.predicate p = true →
        ∃ g, r.convert f p = .ok g ∧ (g.key = key → f.id ∈ ids) := by
  obtain ⟨found, hfound, hids⟩ := Outcome.bind_ok_iff.mp hseek
  cases hids
  have hall := Outcome.mapM_ok_iff.mp hfound
  refine ⟨sortIds_pairwise _, fun id hid => ?_, fun f hf hread => ?_⟩
  · rw [mem_sortIds, List.mem_flatten] at hid
    obtain ⟨l, hl, hid⟩ := hid
    obtain ⟨i, hi⟩ := List.mem_iff_getElem?.mp hl
    obtain ⟨source, -, hl⟩ := forall₂_getElem? hall.flip hi
    obtain ⟨c, hc, hl⟩ := Outcome.bind_ok_iff.mp hl
    cases hl
    split at hid
    · rw [LawfulFactStore.seek_eq h.holds, FactIndex.seek_ofFacts] at hid
      obtain ⟨f, hf, hid⟩ := List.mem_map.mp hid
      exact h.mem_ids_iff.mpr ⟨f, (List.mem_filter.mp hf).1, hid⟩
    · rw [LawfulFactStore.scan_eq h.holds, FactIndex.scan_ofFacts] at hid
      obtain ⟨f, hf, hid⟩ := List.mem_map.mp hid
      exact h.mem_ids_iff.mpr ⟨f, (List.mem_filter.mp hf).1, hid⟩
  · obtain ⟨i, hi⟩ := List.mem_iff_getElem?.mp ((h.mem_sources_iff hf).mpr hread)
    obtain ⟨l, hl, hsource⟩ := forall₂_getElem? hall hi
    obtain ⟨c, hc, hl'⟩ := Outcome.bind_ok_iff.mp hsource
    cases hl'
    obtain ⟨g, hg, -, -, hkey⟩ := h.convert_ok hf hc
    refine ⟨g, hg, fun heq => ?_⟩
    rw [mem_sortIds, List.mem_flatten]
    refine ⟨_, List.mem_of_getElem? hl, ?_⟩
    split
    · rename_i hidentity
      rw [LawfulFactStore.seek_eq h.holds, FactIndex.seek_ofFacts]
      refine List.mem_map_of_mem (List.mem_filter.mpr ⟨hf, ?_⟩)
      rw [← heq, hkey hidentity, decide_eq_true_eq]
    · rw [LawfulFactStore.scan_eq h.holds, FactIndex.scan_ofFacts]
      exact List.mem_map_of_mem (List.mem_filter.mpr ⟨hf, by simp⟩)

end Reading.On

namespace Reading.Over

/-! ## Facts of the schema of the query -/

variable (h : r.Over met log)

include h

/-- Whatever is converted fits the schema of the query. -/
theorem fits_of_convert {f g : Fact} (hf : f ∈ log) {p : Predicate} (hg : r.convert f p = .ok g) :
    g.id = f.id ∧ g.predicate = p ∧ r.target.Fits g := by
  obtain ⟨c, k, v, hc, hk, hv, rfl⟩ := convert_ok_iff.mp hg
  obtain ⟨old, hold, hkey, hvalue⟩ := h.fits f hf
  refine ⟨rfl, rfl, ?_⟩
  rcases conversion_cases hc with ⟨hmode, rfl, rfl⟩ | ⟨_, new, hold', hnew, hck, hcv⟩
  · rw [Conversion.apply_identity] at hk hv
    cases hk
    cases hv
    exact ⟨old, h.same hmode ▸ hold, hkey, hvalue⟩
  · cases hold.symm.trans hold'
    obtain ⟨hkread, hvread⟩ := Schema.readable h.coherent h.narrow hnew
    obtain ⟨k', hk', hkfit⟩ := Conversion.between_sound
      (hkread.mono fun _ h => h.convertible) old.key c.key hck f.key hkey
    obtain ⟨v', hv', hvfit⟩ := Conversion.between_sound
      (hvread.mono fun _ h => h.convertible) old.value c.value hcv f.value hvalue
    cases hk.symm.trans hk'
    cases hv.symm.trans hv'
    exact ⟨new, hnew, hkfit, hvfit⟩

/-- Whatever is read fits the schema of the query. -/
theorem look_sound (hw : w.Good r) : Look.Sound r.target (r.read w.overlay) := by
  intro id p f hread
  replace hread : r.read w.overlay id p = .ok (some f) := hread
  unfold read at hread
  cases hget : w.overlay.get? id with
  | some g =>
      rw [hget] at hread
      dsimp only at hread
      split at hread
      · cases hread
        obtain ⟨hid, hfit⟩ := hw.facts id f hget
        exact ⟨hid, ‹_›, hfit⟩
      · cases hread
  | none =>
      rw [hget] at hread
      dsimp only at hread
      cases hlookup : FactStore.lookup r.store id with
      | none =>
          rw [hlookup] at hread
          cases hread
      | some g =>
          rw [hlookup] at hread
          dsimp only at hread
          obtain ⟨hg, rfl⟩ := h.on.lookup_iff.mp hlookup
          split at hread
          · obtain ⟨f', hf', heq⟩ := Outcome.map_ok_iff.mp hread
            cases heq
            exact h.fits_of_convert hg hf'
          · cases hread

/-! ## Candidates -/

section Gather

variable {κ : Type} [DecidableEq κ] {f : FactId → Except Error (List κ)} {p : Predicate}

omit h in
theorem toNat_inj (a b : FactId) (hab : a.number.toNat = b.number.toNat) : a = b :=
  FactId.ext_toNat hab

/-- A scan leaves out only what cannot be read. -/
theorem gather_scan (hw : w.Good r) (hnone : ∀ id, r.read w.overlay id p = .ok none → f id = .ok [])
    (acc : List κ) :
    gather acc <$> collect f (r.scan p) = gather acc <$> collect f (FactStore.ids r.store) := by
  have hscan : ∀ id, id ∈ r.scan p ↔ ∃ g ∈ log, r.readable g.predicate p = true ∧ g.id = id := by
    simp [h.on.scan_eq, and_assoc]
  refine gather_collect_congr toNat_inj _ _ acc (sortIds_pairwise _) h.on.ids_pairwise
    (fun id hid hnot => ?_) fun id hid hnot => ?_
  · obtain ⟨g, hg, -, hid⟩ := (hscan id).mp hid
    exact absurd (h.on.mem_ids_iff.mpr ⟨g, hg, hid⟩) hnot
  · obtain ⟨g, hg, rfl⟩ := h.on.mem_ids_iff.mp hid
    refine ⟨[], hnone g.id ?_, List.nil_subset acc⟩
    rw [h.on.read_eq hw.clear hg,
      if_neg fun hread => hnot ((hscan g.id).mpr ⟨g, hg, hread, rfl⟩)]

/-- A search leaves out only what cannot be read or has another key. -/
theorem gather_seek (hw : w.Good r) {key : Value} {ids : List FactId} (hseek : r.seek p key = .ok ids)
    (hnone : ∀ id, r.read w.overlay id p = .ok none → f id = .ok [])
    (hkey : ∀ id g, r.read w.overlay id p = .ok (some g) → g.key ≠ key → f id = .ok [])
    (acc : List κ) :
    gather acc <$> collect f ids = gather acc <$> collect f (FactStore.ids r.store) := by
  obtain ⟨hsorted, hmem, hfound⟩ := h.on.seek_ok hseek
  refine gather_collect_congr toNat_inj _ _ acc hsorted h.on.ids_pairwise
    (fun id hid hnot => absurd (hmem id hid) hnot) fun id hid hnot => ?_
  obtain ⟨g, hg, rfl⟩ := h.on.mem_ids_iff.mp hid
  refine ⟨[], ?_, List.nil_subset acc⟩
  by_cases hread : r.readable g.predicate p = true
  · obtain ⟨g', hconvert, hin⟩ := hfound g hg hread
    refine hkey g.id g' ?_ fun heq => hnot (hin heq)
    rw [h.on.read_eq hw.clear hg, if_pos hread, hconvert]
    rfl
  · exact hnone g.id (by rw [h.on.read_eq hw.clear hg, if_neg hread])

end Gather

/-- The facts with the key of a stored fact are found by its digest. -/
theorem siblings_eq (hfree : Collisionless met) {f : Fact} (hf : f ∈ log) :
    (FactStore.seek r.store f.predicate f.key).filter (· ≠ f.id) = r.siblings f := by
  rw [LawfulFactStore.seek_eq h.holds, FactIndex.seek_ofFacts, siblings, ids_eq_map h.holds h.room,
    List.filter_map, List.filter_map, List.filter_filter]
  refine congrArg (List.map _) (List.filter_congr fun g hg => ?_)
  rw [Function.comp_apply, Function.comp_apply, ← Bool.decide_and, decide_eq_decide]
  refine and_congr_right fun _ => ?_
  constructor
  · intro hdigest
    have heq : (g.predicate, g.key) = (f.predicate, f.key) :=
      hfree.key.eq_of_hash unambiguous_keyContent ⟨g.value, h.sound.met g hg⟩
        ⟨f.value, h.sound.met f hf⟩ hdigest
    exact ⟨g, h.on.lookup_iff.mpr ⟨hg, rfl⟩, congrArg Prod.fst heq, congrArg Prod.snd heq⟩
  · rintro ⟨g', hlookup, hp, hk⟩
    obtain ⟨hg', hid⟩ := h.on.lookup_iff.mp hlookup
    obtain rfl := (LawfulFactStore.numbered h.holds).id_inj h.room hg' hg hid
    rw [hp, hk]

end Reading.Over

end Factbase
