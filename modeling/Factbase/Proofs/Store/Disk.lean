import Factbase.Proofs.Decoding
import Factbase.Proofs.Outcome
import Factbase.Proofs.Store.Batches
import Factbase.Proofs.Store.Sessions
import Factbase.Store.Disk

/-!
# Stores on disk follow their log

What a disk store keeps in its tables is determined by its log, as the
facts of a store in memory are (`DiskStore.Keeps`). A commit appends to
both the tables and the index, so nothing is said here about how the
index came about: rebuilding it from the tables gives the index of the
log again, and opening a file gives the store that was closed
(`Keeps.reopen`).

Only there it matters that no two facts have the same id and that a row
can be read at all, which takes fewer facts and shorter rows than a
machine can hold.
-/

namespace Factbase

/-! ## Batches as they are filled -/

/-- A batch was begun at the place `n`, and its facts are numbered from there. -/
structure FactBatch.Begins (b : FactBatch) (n : Nat) : Prop extends b.From n where
  base : b.base = .nth n
  next : b.next = .nth (n + b.size)

namespace FactBatch.Begins

variable {b b' : FactBatch} {m n : Nat}

theorem startingAt (n : Nat) : (FactBatch.startingAt (.nth n)).Begins n where
  digest e he := by cases he
  id_eq i f hf := by simp [FactBatch.startingAt, FactBatch.facts] at hf
  base := rfl
  next := rfl

theorem push (h : b.Begins n) (p : Predicate) (k v : Value) :
    (b.push (contentDigest p k v) p k v).Begins n where
  digest e he := by
    rcases List.mem_append.mp he with he | he
    · exact h.digest e he
    · obtain rfl := List.mem_singleton.mp he
      rfl
  id_eq i f hf := by
    rw [facts_push, List.getElem?_append] at hf
    split at hf
    · exact h.id_eq i f hf
    · rename_i hi
      rw [length_facts] at hi hf
      have hsize : i = b.size := by
        have hlt := (List.getElem?_eq_some_iff.mp hf).1
        rw [List.length_singleton] at hlt
        omega
      subst hsize
      rw [Nat.sub_self] at hf
      obtain rfl : (⟨b.next, p, k, v⟩ : Fact) = f := Option.some.inj hf
      exact h.next
  base := h.base
  next := by
    rw [FactBatch.push, h.next, FactId.next_nth]
    simp [FactBatch.size, Nat.add_assoc]

/-- Whatever store a fact is staged for, the batch goes on with its numbers. -/
theorem stage {σ : Type} [FactStore σ] {s : σ} {p : Predicate} {k v : Value} {id : FactId}
    (h : b.Begins n) (hstage : FactStore.stage s b p k v = .ok (b', id)) : b'.Begins n := by
  rcases stage_cases hstage with ⟨rfl, -⟩ | ⟨rfl, -⟩ | ⟨rfl, -⟩
  · exact h
  · exact h
  · exact h.push p k v

/-- A batch that a commit accepts goes on where the log ends, since places with the same id
stay together. -/
theorem from_of_base (h : b.Begins n) (hbase : b.base = .nth m) : b.From m := by
  refine ⟨h.digest, fun i f hf => ?_⟩
  rw [h.id_eq i f hf]
  exact FactId.nth_add_congr (h.base.symm.trans hbase) i

end FactBatch.Begins

/-- What is staged is what was there and the content that was given. -/
theorem forall_facts_stage {σ : Type} [FactStore σ] {P : Content → Prop} {s : σ}
    {b b' : FactBatch} {p : Predicate} {k v : Value} {id : FactId}
    (hb : ∀ f ∈ b.facts, P f.content) (hnew : P (p, k, v))
    (hstage : FactStore.stage s b p k v = .ok (b', id)) : ∀ f ∈ b'.facts, P f.content := by
  rcases stage_cases hstage with ⟨rfl, -⟩ | ⟨rfl, -⟩ | ⟨rfl, -⟩
  · exact hb
  · exact hb
  · rw [FactBatch.facts_push]
    exact List.forall_mem_append.mpr ⟨hb, List.forall_mem_singleton.mpr hnew⟩

/-! ## Tables of a log -/

/-- A fact can be read from its row: the row is shorter than any length that can be
written. -/
def Fact.Fits (f : Fact) : Prop := (encode f).length < 2 ^ 64

/-- A content leaves room in a row for the id of the fact, which takes up to ten bytes. -/
def Content.Fits (c : Content) : Prop := (encode c).length < 2 ^ 64 - 10

instance (c : Content) : Decidable c.Fits := inferInstanceAs (Decidable (_ < _))

theorem Content.Fits.fact {f : Fact} (h : f.content.Fits) : f.Fits := by
  have hid : (encode f.id).length ≤ 10 := by
    refine Binary.length_varint_le 9 f.id.number.toNat ?_
    have hlt := f.id.number.toNat_lt
    omega
  have hcontent : (encode f.content).length =
      (encode f.predicate).length + ((encode f.key).length + (encode f.value).length) := by
    simp only [encode, Fact.content, List.length_append]
  have hfact : (encode f).length = (encode f.id).length + (encode f.content).length := by
    rw [hcontent]
    simp only [encode, List.length_append]
    omega
  unfold Content.Fits at h
  unfold Fact.Fits
  omega

theorem Fact.Fits.decode {f : Fact} (h : f.Fits) : decode (encode f) = some (f, []) := by
  have hread := Binary.readsBack f h []
  rwa [List.append_nil] at hread

/-- The rows of a log. -/
def rowsById (log : List Fact) : SortedMap FactId Bytes := (factsById log).map fun _ => encode

/-- The ids of a log by content digest. -/
def idsByContent (log : List Fact) : SortedMap Digest FactId :=
  SortedMap.ofList (log.map fun f => (f.digest, f.id))

theorem rowsById_snoc (log : List Fact) (f : Fact) :
    rowsById (log ++ [f]) = (rowsById log).insert f.id (encode f) := by
  refine SortedMap.ext_get? fun id => ?_
  have hstep : factsById (log ++ [f]) = (factsById log).insert f.id f := by
    rw [factsById, List.map_append, SortedMap.insertMany_append]
    rfl
  rw [rowsById, hstep, SortedMap.get?_map, SortedMap.get?_insert, SortedMap.get?_insert, rowsById,
    SortedMap.get?_map]
  split <;> rfl

theorem idsByContent_snoc (log : List Fact) (f : Fact) :
    idsByContent (log ++ [f]) = (idsByContent log).insert f.digest f.id := by
  rw [idsByContent, List.map_append, SortedMap.ofList, SortedMap.insertMany_append]
  rfl

/-- A digest in the table is that of a fact with the id. -/
theorem mem_idsByContent {log : List Fact} {e : Digest × FactId}
    (h : e ∈ (idsByContent log).entries) : ∃ f ∈ log, f.digest = e.1 ∧ f.id = e.2 := by
  have hget : (idsByContent log).get? e.1 = some e.2 := SortedMap.get?_eq_some_iff.mpr h
  exact SortedMap.forall_insertMany (P := fun d id => ∃ f ∈ log, f.digest = d ∧ f.id = id)
    (fun d id hd => by cases hd) (fun e he => by
      obtain ⟨f, hf, rfl⟩ := List.mem_map.mp he
      exact ⟨f, hf, rfl, rfl⟩) hget

/-- While there are ids left the rows stand in the order of the log. -/
theorem entries_rowsById {log : List Fact} (hnum : Numbered log)
    (hroom : log.length < 2 ^ 64 - 1024) :
    (rowsById log).entries = log.map fun f => (f.id, encode f) := by
  refine SortedMap.eq_of_mem_iff (rowsById log).ascending ?_ fun ⟨id, bytes⟩ => ?_
  · refine List.pairwise_map.mpr ((hnum.pairwise hroom).imp fun {f g} hlt => ?_)
    show compare f.id.number g.id.number = .lt
    exact Std.compare_eq_lt.mpr hlt
  · rw [← SortedMap.get?_eq_some_iff, rowsById, SortedMap.get?_map, get?_factsById,
      Option.map_eq_some_iff, List.mem_map]
    constructor
    · rintro ⟨f, hfind, rfl⟩
      refine ⟨f, List.mem_reverse.mp (List.mem_of_find?_eq_some hfind), ?_⟩
      rw [show f.id = id by simpa using List.find?_some hfind]
    · rintro ⟨f, hf, heq⟩
      cases heq
      obtain ⟨g, hfind⟩ : ∃ g, log.reverse.find? (·.id = f.id) = some g := by
        rw [← Option.isSome_iff_exists, List.find?_isSome]
        exact ⟨f, List.mem_reverse.mpr hf, by simp⟩
      have hg : g ∈ log := List.mem_reverse.mp (List.mem_of_find?_eq_some hfind)
      have hid : g.id = f.id := by simpa using List.find?_some hfind
      exact ⟨g, hfind, by rw [hnum.id_inj hroom hg hf hid]⟩

/-! ## Stores -/

namespace DiskStore

/-- The tables of a store and its index are those of a log. -/
structure Keeps (s : DiskStore) (log : List Fact) : Prop where
  numbered : Numbered log
  facts : s.tables.facts = rowsById log
  content : s.tables.content = idsByContent log
  index : s.index = .ofFacts log
  next : s.next = .nth log.length
  /-- The next id is in the tables once there are facts. -/
  next_kept : ((s.tables.numbers.get? Tables.nextName).map FactId.mk).getD .first = s.next
  state_kept : ((s.tables.numbers.get? Tables.stateName).map .ofCode).getD .building = s.state

variable {s : DiskStore} {log : List Fact} {b : FactBatch}

theorem keeps_empty : Keeps empty [] where
  numbered := .nil
  facts := rfl
  content := rfl
  index := rfl
  next := FactId.first_eq_nth
  next_kept := rfl
  state_kept := rfl

/-- The store with the facts of a batch. -/
def append (s : DiskStore) (b : FactBatch) : DiskStore :=
  let next := b.facts.foldl (fun _ f => f.id.next) s.next
  let tables := b.staged.foldl (fun t e => t.addFact e.1 e.2) s.tables
  { s with
    tables := { tables with numbers := tables.numbers.insert Tables.nextName next.number }
    index := s.index.addAll b.staged
    next := next }

theorem commit_nil (hcheck : b.checkCommit s.next s.state = .ok ()) (h : b.staged = []) :
    s.commit b = .ok s := by
  rw [commit, hcheck, h]
  rfl

theorem commit_eq (hcheck : b.checkCommit s.next s.state = .ok ()) (h : b.staged ≠ []) :
    s.commit b = .ok (s.append b) := by
  rw [commit, hcheck]
  simp only [bind, Except.bind, List.isEmpty_iff, h, if_false]
  rfl

theorem commit_refused {e : Error} (h : b.checkCommit s.next s.state = .error e) :
    s.commit b = .error e := by
  rw [commit, h]
  rfl

theorem schemas_append (s : DiskStore) (b : FactBatch) :
    (s.append b).tables.schemas = s.tables.schemas := by
  unfold append
  dsimp only
  generalize s.tables = t
  induction b.staged generalizing t with
  | nil => rfl
  | cons e staged ih => exact ih (t.addFact e.1 e.2)

namespace Keeps

theorem setState (h : s.Keeps log) (state : StoreState) : (s.setState state).Keeps log where
  numbered := h.numbered
  facts := h.facts
  content := h.content
  index := h.index
  next := h.next
  next_kept := by
    have hne : Tables.nextName ≠ Tables.stateName := by decide
    rw [DiskStore.setState, SortedMap.get?_insert_of_ne hne]
    exact h.next_kept
  state_kept := by simp [DiskStore.setState, StoreState.ofCode_code]

theorem saveSchema (h : s.Keeps log) (bytes : Bytes) : (s.saveSchema bytes).Keeps log :=
  ⟨h.numbered, h.facts, h.content, h.index, h.next, h.next_kept, h.state_kept⟩

/-- Rows are added in the order of the batch. -/
theorem addFacts {t : Tables} (hfacts : t.facts = rowsById log) (hcontent : t.content = idsByContent log)
    {staged : List (Digest × Fact)} (hdigest : ∀ e ∈ staged, e.1 = e.2.digest) :
    staged.foldl (fun t e => t.addFact e.1 e.2) t =
      { t with
        facts := rowsById (log ++ staged.map (·.2))
        content := idsByContent (log ++ staged.map (·.2)) } := by
  induction staged generalizing t log with
  | nil => simp [← hfacts, ← hcontent]
  | cons e staged ih =>
      obtain ⟨he, hstaged⟩ := List.forall_mem_cons.mp hdigest
      have hrow : (t.addFact e.1 e.2).facts = rowsById (log ++ [e.2]) := by
        rw [rowsById_snoc, ← hfacts]
        rfl
      have hid : (t.addFact e.1 e.2).content = idsByContent (log ++ [e.2]) := by
        rw [idsByContent_snoc, ← hcontent, ← he]
        rfl
      rw [List.foldl_cons, ih hrow hid hstaged]
      simp [Tables.addFact]

theorem append (h : s.Keeps log) (hb : b.From log.length) : (s.append b).Keeps (log ++ b.facts) := by
  have hnext : b.facts.foldl (fun _ f => f.id.next) s.next = .nth (log ++ b.facts).length := by
    rw [h.next, FactBatch.foldl_next hb, List.length_append]
  have hstored := addFacts h.facts h.content hb.digest
  have hne : Tables.stateName ≠ Tables.nextName := by decide
  unfold DiskStore.append
  rw [hstored, hnext]
  refine ⟨h.numbered.append hb.id_eq, rfl, rfl, ?_, rfl, by simp, ?_⟩
  · dsimp only
    rw [h.index, FactIndex.ofFacts_append log b.staged hb.digest, FactBatch.facts]
  · dsimp only
    rw [SortedMap.get?_insert_of_ne hne]
    exact h.state_kept

/-- A commit that is accepted appends the batch, and nothing else changes. -/
theorem commit (h : s.Keeps log) (hb : b.From log.length)
    (hcheck : b.checkCommit s.next s.state = .ok ()) :
    ∃ s', s.commit b = .ok s' ∧ s'.Keeps (log ++ b.facts) ∧ s'.state = s.state ∧
      s'.tables.schemas = s.tables.schemas := by
  by_cases hempty : b.staged = []
  · have hfacts : b.facts = [] := by rw [FactBatch.facts, hempty, List.map_nil]
    exact ⟨s, commit_nil hcheck hempty, by rwa [hfacts, List.append_nil], rfl, rfl⟩
  · exact ⟨s.append b, commit_eq hcheck hempty, h.append hb, rfl, schemas_append s b⟩

/-- The digest that is found for a fact is its own. -/
theorem digestOf_eq (h : s.Keeps log) (hroom : log.length < 2 ^ 64 - 1024) {f : Fact} (hf : f ∈ log) :
    s.tables.digestOf f.id f = f.digest := by
  unfold Tables.digestOf
  split
  · rename_i e hfind
    have hmem : e ∈ (idsByContent log).entries := by
      rw [← h.content]
      exact List.mem_reverse.mp (List.mem_of_find?_eq_some hfind)
    obtain ⟨g, hg, hd, hid⟩ := mem_idsByContent hmem
    have heq : e.2 = f.id := by simpa using List.find?_some hfind
    rw [← hd, h.numbered.id_inj hroom hg hf (hid.trans heq)]
  · rfl

/-- The rows of a store give its log. -/
theorem factList_eq (h : s.Keeps log) (hroom : log.length < 2 ^ 64 - 1024)
    (hfits : ∀ f ∈ log, f.Fits) : s.tables.factList = .ok (log.map fun f => (f.digest, f)) := by
  unfold Tables.factList
  rw [h.facts, entries_rowsById h.numbered hroom, Outcome.mapM_ok_iff, List.forall₂_map_left_iff,
    List.forall₂_map_right_iff]
  refine List.forall₂_same.mpr fun f hf => ?_
  dsimp only
  rw [(hfits f hf).decode]
  dsimp only
  rw [h.digestOf_eq hroom hf]

/-- A file that is closed and opened again is the store that it was: the index that is
rebuilt from the tables is the one that was kept up to date. -/
theorem reopen (h : s.Keeps log) (hroom : log.length < 2 ^ 64 - 1024) (hfits : ∀ f ∈ log, f.Fits) :
    s.reopen = .ok s := by
  have hindex : FactIndex.empty.addAll (log.map fun f => (f.digest, f)) = s.index := h.index.symm
  unfold DiskStore.reopen ofTables
  rw [h.factList_eq hroom hfits]
  show Except.ok _ = _
  rw [hindex, h.next_kept, h.state_kept]

end Keeps

theorem size_le_addFacts (t : Tables) (staged : List (Digest × Fact)) :
    t.facts.size ≤ (staged.foldl (fun t e => t.addFact e.1 e.2) t).facts.size := by
  induction staged generalizing t with
  | nil => exact Nat.le_refl _
  | cons e staged ih =>
      refine Nat.le_trans ?_ (ih (t.addFact e.1 e.2))
      exact SortedMap.length_insertEntry_le e.2.id (encode e.2) t.facts.entries

instance : LawfulFactStore DiskStore where
  empty := empty
  Keeps := Content.Fits
  Holds s log := s.Keeps log ∧ ∀ f ∈ log, f.Fits
  holds_empty := ⟨keeps_empty, fun _ h => by cases h⟩
  numbered h := h.1.numbered
  lookup_eq {s log} h id := by
    have hrow : s.tables.fact? id = ((factsById log).get? id).bind fun f =>
        ((decode (encode f) : Option (Fact × Bytes))).map (·.1) := by
      rw [Tables.fact?, h.1.facts, rowsById, SortedMap.get?_map, Option.bind_map]
      rfl
    show s.tables.fact? id = _
    rw [hrow, get?_factsById]
    cases hfind : log.reverse.find? (·.id = id) with
    | none => rfl
    | some f =>
        have hf := List.mem_reverse.mp (List.mem_of_find?_eq_some hfind)
        rw [Option.bind_some, (h.2 f hf).decode]
        rfl
  find_eq h d := congrArg (·.content.get? d) h.1.index
  scan_eq h p := congrArg (·.scan p) h.1.index
  seek_eq h p key := congrArg (·.seek p key) h.1.index
  predicates_eq h := congrArg (·.byPredicate.keys) h.1.index
  statistics_eq h := congrArg (·.stats) h.1.index
  nextId_eq h := h.1.next
  size_eq {s log} h := by
    have hsize : (rowsById log).size = (factsById log).size := List.length_map ..
    rw [← size_factsById h.1.numbered, ← hsize, ← h.1.facts]
    rfl
  commit_ok {s log b} h hb hfits hcheck := by
    obtain ⟨s', hcommit, hkeeps, hstate, hschemas⟩ := h.1.commit hb hcheck
    refine ⟨s', hcommit, ⟨hkeeps, fun f hf => ?_⟩, hstate, congrArg (·.get? Tables.schemaName) hschemas⟩
    rcases List.mem_append.mp hf with hf | hf
    · exact h.2 f hf
    · exact (hfits f hf).fact
  commit_error hcheck := commit_refused hcheck
  size_le_commit {s s' b} hcommit := by
    cases hcheck : b.checkCommit s.next s.state with
    | error e =>
        have hrefused : s.commit b = .ok s' := hcommit
        rw [commit_refused hcheck] at hrefused
        cases hrefused
    | ok u =>
        have hdone : s.commit b = .ok s' := hcommit
        by_cases hempty : b.staged = []
        · rw [commit_nil hcheck hempty] at hdone
          cases hdone
          exact Nat.le_refl _
        · rw [commit_eq hcheck hempty] at hdone
          cases hdone
          exact size_le_addFacts s.tables b.staged
  holds_setState state h := ⟨h.1.setState state, h.2⟩
  state_setState _ _ := rfl
  loadSchema_setState _ _ := rfl
  size_setState _ _ := rfl
  holds_saveSchema bytes h := ⟨h.1.saveSchema bytes, h.2⟩
  state_saveSchema _ _ := rfl
  loadSchema_saveSchema s bytes := SortedMap.get?_insert_self ..
  size_saveSchema _ _ := rfl

end DiskStore

end Factbase
