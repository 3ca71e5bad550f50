import Factbase.Proofs.Store.Disk

/-!
# Content addressing

A digest is taken over an encoding that says what it encodes and where it
ends, so where the hash does not collide a digest stands for one content.
A store finds the facts it has by their digests, and a batch likewise.
Hence staging a fact gives the id of a fact that says the same, and a fact
is staged anew exactly if none says the same so far.

This is so in every session (`StoreSession.Follows`): its store holds a
log, its batches are numbered and have the digests of their facts. No
bound on the number of facts is needed.
-/

namespace Factbase

open Binary LawfulFactStore

/-! ## Encodings and digests -/

/-- No encoding is the beginning of another one. -/
theorem Binary.Unambiguous.eq_of_prefix {α : Type} [Binary α] (h : Unambiguous α) {a b : α}
    (hbegins : encode a <+: encode b) : a = b := by
  obtain ⟨rest, hrest⟩ := hbegins
  exact (h a b rest [] (by rw [hrest, List.append_nil])).1

/-- Where the hash does not collide, digests agree on equal things only. -/
theorem CollisionFree.hash_iff {α : Type} [Binary α] (hu : Unambiguous α) {S : α → Prop}
    (h : CollisionFree S) {a b : α} (ha : S a) (hb : S b) :
    Blake3.hash (encode a) = Blake3.hash (encode b) ↔ a = b :=
  ⟨h.eq_of_hash hu ha hb, fun heq => by rw [heq]⟩

/-! ## What staging finds -/

/-- Staging a content for a store with the given log gives the id of a fact that says it,
which is there already or is staged anew. -/
structure Deduplicates {σ : Type} [FactStore σ] (s : σ) (log : List Fact) (b : FactBatch)
    (p : Predicate) (k v : Value) : Prop where
  /-- Different facts are never taken for one. -/
  same : ∀ b' id, FactStore.stage s b p k v = .ok (b', id) →
    ∃ f ∈ log ++ b'.facts, f.id = id ∧ f.content = (p, k, v)
  /-- An equal fact is never missed. -/
  found : FactStore.state s = .building → (∃ f ∈ log ++ b.facts, f.content = (p, k, v)) →
    ∃ id, FactStore.stage s b p k v = .ok (b, id)
  /-- What nothing says so far is a new fact, unless it is refused. -/
  fresh : (∀ f ∈ log ++ b.facts, f.content ≠ (p, k, v)) →
    ∀ b' id, FactStore.stage s b p k v = .ok (b', id) →
      id = b.next ∧ b'.facts = b.facts ++ [⟨b.next, p, k, v⟩]

section Stores

variable {σ : Type} [FactStore σ] [LawfulFactStore σ] {met : Content → Prop} {s : σ}
variable {log : List Fact} {b : FactBatch} {p : Predicate} {k v : Value}

/-- What a store finds by its digest is a fact that says the same. -/
theorem content_of_find (hholds : Holds s log) (hlog : ∀ f ∈ log, met f.content)
    (hfree : CollisionFree met) (hmet : met (p, k, v)) {id : FactId}
    (hfind : FactStore.find s (contentDigest p k v) = some id) :
    ∃ f ∈ log, f.id = id ∧ f.content = (p, k, v) := by
  rw [find_eq hholds, FactIndex.content_ofFacts, Option.map_eq_some_iff] at hfind
  obtain ⟨f, hfind, hid⟩ := hfind
  have hf : f ∈ log := List.mem_reverse.mp (List.mem_of_find?_eq_some hfind)
  have hdigest : f.digest = contentDigest p k v := by simpa using List.find?_some hfind
  exact ⟨f, hf, hid, hfree.eq_of_hash unambiguous_content (hlog f hf) hmet hdigest⟩

/-- A fact of the store is found by what it says. -/
theorem find_of_content (hholds : Holds s log) {f : Fact} (hf : f ∈ log)
    (hcontent : f.content = (p, k, v)) :
    ∃ id, FactStore.find s (contentDigest p k v) = some id := by
  rw [find_eq hholds, FactIndex.content_ofFacts]
  obtain ⟨g, hg⟩ : ∃ g, log.reverse.find? (·.digest = contentDigest p k v) = some g := by
    rw [← Option.isSome_iff_exists, List.find?_isSome]
    exact ⟨f, List.mem_reverse.mpr hf, by simpa using Fact.digest_of_content hcontent⟩
  exact ⟨g.id, by rw [hg]; rfl⟩

/-- What a batch finds by its digest is a fact that says the same. -/
theorem content_of_batch (hdigest : ∀ e ∈ b.staged, e.1 = e.2.digest)
    (hbatch : ∀ f ∈ b.facts, met f.content) (hfree : CollisionFree met) (hmet : met (p, k, v))
    {id : FactId} (hfind : b.find? (contentDigest p k v) = some id) :
    ∃ f ∈ b.facts, f.id = id ∧ f.content = (p, k, v) := by
  obtain ⟨e, hfind, hid⟩ := Option.map_eq_some_iff.mp hfind
  have he : e ∈ b.staged := List.mem_of_find?_eq_some hfind
  have hf : e.2 ∈ b.facts := List.mem_map.mpr ⟨e, he, rfl⟩
  have heq : e.2.digest = contentDigest p k v := by
    rw [← hdigest e he]
    simpa using List.find?_some hfind
  exact ⟨e.2, hf, hid, hfree.eq_of_hash unambiguous_content (hbatch e.2 hf) hmet heq⟩

/-- A fact of a batch is found by what it says. -/
theorem batch_of_content (hdigest : ∀ e ∈ b.staged, e.1 = e.2.digest) {f : Fact}
    (hf : f ∈ b.facts) (hcontent : f.content = (p, k, v)) :
    ∃ id, b.find? (contentDigest p k v) = some id := by
  obtain ⟨e, he, rfl⟩ := List.mem_map.mp hf
  have hfound : (b.staged.find? fun e => e.1 == contentDigest p k v).isSome := by
    rw [List.find?_isSome]
    exact ⟨e, he, by rw [hdigest e he, Fact.digest_of_content hcontent]; exact beq_self_eq_true _⟩
  obtain ⟨e', he'⟩ := Option.isSome_iff_exists.mp hfound
  exact ⟨e'.2.id, by rw [FactBatch.find?, he']; rfl⟩

theorem deduplicates (hholds : Holds s log) (hlog : ∀ f ∈ log, met f.content)
    (hdigest : ∀ e ∈ b.staged, e.1 = e.2.digest) (hbatch : ∀ f ∈ b.facts, met f.content)
    (hfree : CollisionFree met) (hmet : met (p, k, v)) : Deduplicates s log b p k v where
  same b' id hstage := by
    rcases stage_cases hstage with ⟨rfl, hstore⟩ | ⟨rfl, hfind⟩ | ⟨rfl, rfl, -⟩
    · obtain ⟨f, hf, hsays⟩ := content_of_find hholds hlog hfree hmet hstore
      exact ⟨f, List.mem_append_left _ hf, hsays⟩
    · obtain ⟨f, hf, hsays⟩ := content_of_batch hdigest hbatch hfree hmet hfind
      exact ⟨f, List.mem_append_right _ hf, hsays⟩
    · refine ⟨⟨b.next, p, k, v⟩, ?_, rfl, rfl⟩
      simp [FactBatch.facts_push]
  found hstate hthere := by
    obtain ⟨f, hf, hcontent⟩ := hthere
    have hfound : ∃ id, (FactStore.find s (contentDigest p k v) <|>
        b.find? (contentDigest p k v)) = some id := by
      cases hstore : FactStore.find s (contentDigest p k v) with
      | some id => exact ⟨id, rfl⟩
      | none =>
          rcases List.mem_append.mp hf with hf | hf
          · obtain ⟨id, hid⟩ := find_of_content hholds hf hcontent
            cases hstore.symm.trans hid
          · exact batch_of_content hdigest hf hcontent
    obtain ⟨id, hid⟩ := hfound
    refine ⟨id, ?_⟩
    unfold FactStore.stage
    rw [if_neg (by simp [hstate])]
    dsimp only
    rw [hid]
  fresh hnew b' id hstage := by
    rcases stage_cases hstage with ⟨rfl, hstore⟩ | ⟨rfl, hfind⟩ | ⟨rfl, rfl, -⟩
    · obtain ⟨f, hf, -, hcontent⟩ := content_of_find hholds hlog hfree hmet hstore
      exact absurd hcontent (hnew f (List.mem_append_left _ hf))
    · obtain ⟨f, hf, -, hcontent⟩ := content_of_batch hdigest hbatch hfree hmet hfind
      exact absurd hcontent (hnew f (List.mem_append_right _ hf))
    · exact ⟨rfl, b.facts_push ..⟩

end Stores

/-! ## Sessions -/

namespace StoreSession

variable {σ : Type} [FactStore σ] [LawfulFactStore σ] {met : Content → Prop}

/-- The store of a session holds a log, its batches are numbered wherever they began, and
all facts are of contents that were met. -/
structure Follows (met : Content → Prop) (w : StoreSession σ) (log : List Fact) : Prop where
  holds : Holds w.store log
  contents : ∀ f ∈ log, met f.content
  batches : ∀ i b, w.batches i = some b → (∃ n, b.Begins n) ∧ ∀ f ∈ b.facts, met f.content

namespace Follows

variable {w : StoreSession σ} {log : List Fact}

theorem new : Follows met (new : StoreSession σ) [] where
  holds := holds_empty
  contents f hf := by cases hf
  batches i b hb := by cases hb

theorem hold (h : Follows met w log) (i : Nat) {b : Option FactBatch}
    (hb : ∀ b' ∈ b, (∃ n, b'.Begins n) ∧ ∀ f ∈ b'.facts, met f.content) :
    Follows met (w.hold i b) log where
  holds := h.holds
  contents := h.contents
  batches j b' hj := by
    unfold StoreSession.hold at hj
    dsimp only at hj
    split at hj
    · exact hb b' hj
    · exact h.batches j b' hj

theorem newBatch (h : Follows met w log) :
    (∃ n, (FactStore.newBatch w.store).Begins n) ∧
      ∀ f ∈ (FactStore.newBatch w.store).facts, met f.content := by
  refine ⟨⟨log.length, ?_⟩, fun f hf => by cases hf⟩
  rw [FactStore.newBatch, nextId_eq h.holds]
  exact .startingAt _

/-- A batch goes on where the log ends if it is committed at all: places with the same id
stay together. -/
theorem commit (h : Follows met w log) (hkeeps : ∀ c, met c → Keeps σ c) {b : FactBatch}
    (hb : (∃ n, b.Begins n) ∧ ∀ f ∈ b.facts, met f.content) {s' : σ}
    (hcommit : FactStore.commit w.store b = .ok s') :
    Follows met { w with store := s' } (log ++ b.facts) := by
  obtain ⟨⟨n, hn⟩, hfacts⟩ := hb
  cases hcheck : b.checkCommit (FactStore.nextId w.store) (FactStore.state w.store) with
  | error e =>
      rw [commit_error hcheck] at hcommit
      cases hcommit
  | ok u =>
      have hbase := (FactBatch.checkCommit_ok_iff.mp hcheck).2.trans (nextId_eq h.holds)
      obtain ⟨t, ht, hholds, -, -⟩ := commit_ok h.holds (hn.from_of_base hbase)
        (fun f hf => hkeeps _ (hfacts f hf)) hcheck
      cases ht.symm.trans hcommit
      exact ⟨hholds, List.forall_mem_append.mpr ⟨h.contents, hfacts⟩, h.batches⟩

/-- One operation keeps to it. -/
theorem step (h : Follows met w log) (hkeeps : ∀ c, met c → Keeps σ c) (op : StoreOp)
    (hmet : ∀ c ∈ op.content?, met c) : ∃ more, Follows met (w.step op) (log ++ more) := by
  have hsame : Follows met w (log ++ []) := by rwa [List.append_nil]
  have hnone : ∀ b' ∈ (none : Option FactBatch),
      (∃ n, b'.Begins n) ∧ ∀ f ∈ b'.facts, met f.content := fun _ hb => by cases hb
  cases op with
  | openBatch i => exact ⟨[], hsame.hold i fun b hb => Option.some.inj hb ▸ h.newBatch⟩
  | copyBatch i j => exact ⟨[], hsame.hold j fun b hb => h.batches i b hb⟩
  | dropBatch i => exact ⟨[], hsame.hold i hnone⟩
  | stage i p k v =>
      unfold StoreSession.step
      dsimp only
      split
      · exact ⟨[], hsame⟩
      · rename_i b hb
        split
        · rename_i b' id hstage
          obtain ⟨⟨n, hn⟩, hfacts⟩ := h.batches i b hb
          refine ⟨[], hsame.hold i fun b'' hb'' => ?_⟩
          obtain rfl := Option.some.inj hb''
          exact ⟨⟨n, hn.stage hstage⟩, forall_facts_stage hfacts (hmet _ rfl) hstage⟩
        · exact ⟨[], hsame⟩
  | commit i =>
      unfold StoreSession.step
      dsimp only
      split
      · exact ⟨[], hsame⟩
      · rename_i b hb
        split
        · rename_i s' hcommit
          exact ⟨b.facts, (h.commit hkeeps (h.batches i b hb) hcommit).hold i hnone⟩
        · exact ⟨[], hsame.hold i hnone⟩
  | insert p k v =>
      unfold StoreSession.step
      dsimp only
      split
      · rename_i s' id hinsert
        obtain ⟨b, hstage, hcommit⟩ := insert_ok hinsert
        obtain ⟨⟨n, hn⟩, hfacts⟩ := h.newBatch
        exact ⟨b.facts, h.commit hkeeps
          ⟨⟨n, hn.stage hstage⟩, forall_facts_stage hfacts (hmet _ rfl) hstage⟩ hcommit⟩
      · exact ⟨[], hsame⟩
  | setState state => exact ⟨[], holds_setState state hsame.holds, hsame.contents, h.batches⟩
  | saveSchema bytes => exact ⟨[], holds_saveSchema bytes hsame.holds, hsame.contents, h.batches⟩

/-- Any number of operations keep to it. -/
theorem run (h : Follows met w log) (hkeeps : ∀ c, met c → Keeps σ c) (ops : List StoreOp)
    (hmet : ∀ op ∈ ops, ∀ c ∈ op.content?, met c) :
    ∃ more, Follows met (w.run ops) (log ++ more) := by
  induction ops generalizing w log with
  | nil => exact ⟨[], by rwa [List.append_nil]⟩
  | cons op ops ih =>
      obtain ⟨hop, hops⟩ := List.forall_mem_cons.mp hmet
      obtain ⟨more, hstep⟩ := h.step hkeeps op hop
      obtain ⟨more', hrun⟩ := ih hstep hops
      exact ⟨more ++ more', by rwa [← List.append_assoc]⟩

end Follows

end StoreSession

open StoreSession

/-- Digests identify contents. The byte strings that they are taken over are those of one
content (one predicate and key) each, and none of them is the beginning of another. So where
the hash does not collide on what was met, facts have the same digest exactly if they say the
same, and after any operations on a store every batch that is open on it stages a fact anew
exactly if nothing says the same so far. -/
theorem digests_identify :
    (∀ a b : Content, encode a <+: encode b → a = b) ∧
    (∀ a b : Predicate × Value, encode a <+: encode b → a = b) ∧
    ∀ met : Content → Prop, Collisionless met →
      (∀ f g : Fact, met f.content → met g.content →
        (f.digest = g.digest ↔ f.content = g.content) ∧
        (keyDigest f.predicate f.key = keyDigest g.predicate g.key ↔
          f.predicate = g.predicate ∧ f.key = g.key)) ∧
      ∀ {σ : Type} [FactStore σ] [LawfulFactStore σ], (∀ c, met c → Keeps σ c) →
        ∀ ops : List StoreOp, (∀ op ∈ ops, ∀ c ∈ op.content?, met c) →
          ∃ log, Holds ((new : StoreSession σ).run ops).store log ∧
            ∀ i b, ((new : StoreSession σ).run ops).batches i = some b →
              ∀ p k v, met (p, k, v) →
                Deduplicates ((new : StoreSession σ).run ops).store log b p k v := by
  refine ⟨fun a b => unambiguous_content.eq_of_prefix,
    fun a b => unambiguous_keyContent.eq_of_prefix, fun met hfree => ⟨fun f g hf hg => ⟨?_, ?_⟩, ?_⟩⟩
  · exact hfree.content.hash_iff unambiguous_content hf hg
  · rw [← Prod.mk.injEq]
    exact hfree.key.hash_iff unambiguous_keyContent ⟨f.value, hf⟩ ⟨g.value, hg⟩
  · intro σ _ _ hkeeps ops hmet
    have hnew : Follows met (new : StoreSession σ) [] := .new
    obtain ⟨log, hrun⟩ := hnew.run hkeeps ops hmet
    rw [List.nil_append] at hrun
    refine ⟨log, hrun.holds, fun i b hb p k v hpkv => ?_⟩
    obtain ⟨⟨n, hn⟩, hfacts⟩ := hrun.batches i b hb
    exact deduplicates hrun.holds hrun.contents hn.digest hfacts hfree.content hpkv

/-- A fact that is committed, and a batch that is open with another one. -/
def halfStaged : List StoreOp :=
  [.insert ⟨"item", 1⟩ (.array [.nat 1]) .unit, .openBatch 0,
    .stage 0 ⟨"item", 1⟩ (.record [.nat 1]) .unit]

/-- The contents of `halfStaged`, and two that look much like them. -/
def halfStagedMet : List Content :=
  halfStaged.filterMap StoreOp.content? ++
    [(⟨"item", 1⟩, .array [.byte 1], .unit), (⟨"ite", 1⟩, .array [.nat 1], .unit)]

theorem digests_identify_halfStaged :
    contentDigest ⟨"item", 1⟩ (.array [.nat 1]) .unit ≠
      contentDigest ⟨"item", 1⟩ (.record [.nat 1]) .unit ∧
    ∃ log b, Holds ((new : StoreSession MemoryStore).run halfStaged).store log ∧
      ((new : StoreSession MemoryStore).run halfStaged).batches 0 = some b ∧
      ∀ c ∈ halfStagedMet,
        Deduplicates ((new : StoreSession MemoryStore).run halfStaged).store log b c.1 c.2.1 c.2.2 := by
  have hcontent : CollisionFree (· ∈ halfStagedMet) := by
    have hinj : ∀ a ∈ halfStagedMet, ∀ b ∈ halfStagedMet,
        Blake3.hash (encode a) = Blake3.hash (encode b) → encode a = encode b := by decide +kernel
    exact fun a b ha hb => hinj a ha b hb
  have hkey : CollisionFree fun k : Predicate × Value => ∃ v, (k.1, k.2, v) ∈ halfStagedMet := by
    have hinj : ∀ a ∈ halfStagedMet, ∀ b ∈ halfStagedMet,
        Blake3.hash (encode (a.1, a.2.1)) = Blake3.hash (encode (b.1, b.2.1)) →
        encode (a.1, a.2.1) = encode (b.1, b.2.1) := by decide +kernel
    rintro ⟨p, k⟩ ⟨p', k'⟩ ⟨v, ha⟩ ⟨v', hb⟩
    exact hinj (p, k, v) ha (p', k', v') hb
  obtain ⟨-, -, hmet⟩ := digests_identify
  obtain ⟨hdigests, hsessions⟩ := hmet (· ∈ halfStagedMet) ⟨hcontent, hkey⟩
  obtain ⟨log, hholds, hbatches⟩ := @hsessions MemoryStore _ _ (fun _ _ => trivial) halfStaged
    fun op hop c hc => List.mem_append_left _ (List.mem_filterMap.mpr ⟨op, hop, hc⟩)
  obtain ⟨b, hb⟩ : ∃ b, ((new : StoreSession MemoryStore).run halfStaged).batches 0 = some b :=
    Option.isSome_iff_exists.mp (by decide +kernel)
  refine ⟨fun heq => ?_, log, b, hholds, hb, fun c hc => hbatches 0 b hb c.1 c.2.1 c.2.2 hc⟩
  have hsame := (hdigests ⟨.first, ⟨"item", 1⟩, .array [.nat 1], .unit⟩
    ⟨.first, ⟨"item", 1⟩, .record [.nat 1], .unit⟩ (by decide) (by decide)).1.mp heq
  cases hsame

end Factbase
