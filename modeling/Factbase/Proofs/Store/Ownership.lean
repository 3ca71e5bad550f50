import Factbase.Proofs.Outcome
import Factbase.Proofs.Store.Digests
import Factbase.Store.Ownership
import Mathlib.Logic.Relation

/-!
# Owners are roots that reach

A single pass over the facts, from the last one to the first, finds for
every fact the roots from which it is reached. `Refers` is one step along a
reference, at any depth of a key or a value, and a root is a fact that no
fact refers to.

What makes one pass enough is that references go to earlier facts. The
invariant (`Settled`) is about the facts that the pass has met, which are
those at the end of the log: their owners are final. Whatever refers to the
next fact stands after it, and so is among them.
-/

namespace Factbase

/-! ## References -/

/-- The id stands in a value, at any depth. -/
inductive Value.Mentions (id : FactId) : Value → Prop where
  | fact : Mentions id (.fact id)
  | item {v : Value} {items : List Value} (hv : v ∈ items) (h : Mentions id v) :
      Mentions id (.array items)
  | field {v : Value} {fields : List Value} (hv : v ∈ fields) (h : Mentions id v) :
      Mentions id (.record fields)
  | payload {v : Value} (index : UInt32) (h : Mentions id v) : Mentions id (.alt index v)

namespace Value

variable {id : FactId}

mutual
theorem mem_references_iff : (v : Value) → (id ∈ v.references ↔ v.Mentions id)
  | .byte _ | .nat _ | .bool _ | .string _ => by
      constructor
      · intro h
        simp [references] at h
      · rintro ⟨⟩
  | .fact target => by
      constructor
      · intro h
        obtain rfl : id = target := by simpa [references] using h
        exact .fact
      · rintro ⟨⟩
        simp [references]
  | .alt index payload => by
      rw [references, mem_references_iff payload]
      constructor
      · exact .payload index
      · rintro ⟨⟩
        assumption
  | .array items => by
      rw [references, mem_referencesAll_iff items]
      constructor
      · rintro ⟨v, hv, h⟩
        exact .item hv h
      · rintro (- | ⟨hv, h⟩)
        exact ⟨_, hv, h⟩
  | .record fields => by
      rw [references, mem_referencesAll_iff fields]
      constructor
      · rintro ⟨v, hv, h⟩
        exact .field hv h
      · rintro (- | - | ⟨hv, h⟩)
        exact ⟨_, hv, h⟩

theorem mem_referencesAll_iff : (vs : List Value) →
    (id ∈ referencesAll vs ↔ ∃ v ∈ vs, v.Mentions id)
  | [] => by simp [referencesAll]
  | v :: vs => by
      rw [referencesAll, List.mem_append, mem_references_iff v, mem_referencesAll_iff vs]
      simp
end

end Value

/-- One fact of a log refers to another one. -/
def RefersIn (log : List Fact) (source target : FactId) : Prop :=
  ∃ f ∈ log, f.id = source ∧ target ∈ f.references

/-- One fact of a store refers to another one, somewhere in its key or its value. -/
def FactStore.Refers {σ : Type} [FactStore σ] (s : σ) (source target : FactId) : Prop :=
  ∃ f, FactStore.lookup s source = some f ∧ (f.key.Mentions target ∨ f.value.Mentions target)

/-- A fact of a store that no fact of it refers to. -/
def FactStore.IsRoot {σ : Type} [FactStore σ] (s : σ) (id : FactId) : Prop :=
  (FactStore.lookup s id).isSome ∧ ∀ source, ¬ FactStore.Refers s source id

theorem SortedSet.mem_ofList {κ : Type} [Ord κ] [Std.TransOrd κ] [Std.LawfulEqOrd κ] [DecidableEq κ]
    {l : List κ} {k : κ} : k ∈ (SortedSet.ofList l).toList ↔ k ∈ l := by
  rw [SortedSet.ofList, SortedSet.toList, SortedMap.mem_keys_iff]
  induction l using List.reverseRecOn with
  | nil => simp
  | append_singleton l a ih =>
      rw [List.foldl_append, List.foldl_cons, List.foldl_nil, SortedSet.add, SortedMap.get?_insert]
      by_cases hk : k = a
      · simp [hk]
      · simpa [hk] using ih

namespace Ownership

/-! ## Who refers to a fact -/

variable {log : List Fact}

/-- The references of a log as pairs of a target and the fact that refers to it. -/
def edges (log : List Fact) : List (FactId × FactId) :=
  log.flatMap fun f => f.references.map fun target => (target, f.id)

theorem mem_edges_iff {source target : FactId} :
    (target, source) ∈ edges log ↔ RefersIn log source target := by
  constructor
  · intro h
    obtain ⟨f, hf, h⟩ := List.mem_flatMap.mp h
    obtain ⟨r, hr, heq⟩ := List.mem_map.mp h
    cases heq
    exact ⟨f, hf, rfl, hr⟩
  · rintro ⟨f, hf, rfl, hr⟩
    exact List.mem_flatMap.mpr ⟨f, hf, List.mem_map.mpr ⟨target, hr, rfl⟩⟩

theorem foldl_noteFact (m : Referrers) :
    log.foldl noteFact m = (edges log).foldl (fun m e => m.update e.1 [] (· ++ [e.2])) m := by
  induction log generalizing m with
  | nil => rfl
  | cons f log ih =>
      have hedges : edges (f :: log) =
          f.references.map (fun target => (target, f.id)) ++ edges log := List.flatMap_cons
      rw [List.foldl_cons, ih, hedges, List.foldl_append, List.foldl_map]
      rfl

theorem get?_foldl_update (es : List (FactId × FactId)) (target : FactId) :
    (es.foldl (fun m e => m.update e.1 [] (· ++ [e.2])) (∅ : Referrers)).get? target =
      let sources := (es.filter (·.1 = target)).map (·.2)
      if sources = [] then none else some sources := by
  induction es using List.reverseRecOn with
  | nil => rfl
  | append_singleton es e ih =>
      rw [List.foldl_append, List.foldl_cons, List.foldl_nil, SortedMap.get?_update]
      dsimp only at ih ⊢
      rw [ih, List.filter_append, List.map_append]
      by_cases htarget : target = e.1
      · have hlast : (([e].filter (·.1 = target)).map (·.2)) = [e.2] := by simp [htarget]
        rw [if_pos htarget, hlast, if_neg (by simp), ← htarget, ih]
        split
        · rename_i hnil
          rw [hnil]
          rfl
        · rfl
      · have hlast : (([e].filter (·.1 = target)).map (·.2)) = [] := by simp [Ne.symm htarget]
        rw [if_neg htarget, hlast, List.append_nil]

/-- Nothing is noted for a fact that nothing refers to. -/
theorem not_refersIn_of_none {target : FactId} (h : (log.foldl noteFact ∅).get? target = none)
    (source : FactId) : ¬ RefersIn log source target := by
  intro hrefers
  rw [foldl_noteFact, get?_foldl_update] at h
  have hnil : (edges log).filter (·.1 = target) = [] := by
    by_contra hne
    simp [hne] at h
  refine List.filter_eq_nil_iff.mp hnil (target, source) (mem_edges_iff.mpr hrefers) ?_
  simp

theorem mem_of_some {target : FactId} {sources : List FactId}
    (h : (log.foldl noteFact ∅).get? target = some sources) :
    sources ≠ [] ∧ ∀ source, source ∈ sources ↔ RefersIn log source target := by
  rw [foldl_noteFact, get?_foldl_update] at h
  dsimp only at h
  split at h
  · cases h
  · rename_i hne
    obtain rfl := Option.some.inj h
    refine ⟨hne, fun source => ?_⟩
    rw [← mem_edges_iff, List.mem_map]
    constructor
    · rintro ⟨⟨t, s⟩, he, rfl⟩
      obtain ⟨he, ht⟩ := List.mem_filter.mp he
      have ht : t = target := by simpa using ht
      exact ht ▸ he
    · intro he
      exact ⟨(target, source), List.mem_filter.mpr ⟨he, by simp⟩, rfl⟩

/-! ## The pass -/

/-- A fact of a log that no fact of it refers to. -/
def RootIn (log : List Fact) (id : FactId) : Prop :=
  (∃ f ∈ log, f.id = id) ∧ ∀ source, ¬ RefersIn log source id

/-- The roots that reach a fact, of which there are some. -/
structure RootsOf (log : List Fact) (id : FactId) (own : SortedSet FactId) : Prop where
  nonempty : own.toList ≠ []
  mem_iff : ∀ r, r ∈ own.toList ↔ RootIn log r ∧ Relation.ReflTransGen (RefersIn log) r id

/-- The facts at the end of a log have their owners, and no others have any. -/
structure Settled (log after : List Fact) (owners : Ownership) : Prop where
  met : ∀ f ∈ after, ∃ own, owners.get? f.id = some own ∧ RootsOf log f.id own
  unmet : ∀ id, (∀ f ∈ after, f.id ≠ id) → owners.get? id = none

/-- A root is reached from itself only. -/
theorem RootsOf.of_root {f : Fact} (hf : f ∈ log) (hroot : ∀ source, ¬ RefersIn log source f.id) :
    RootsOf log f.id (SortedSet.ofList [f.id]) where
  nonempty := List.ne_nil_of_mem (SortedSet.mem_ofList.mpr (List.mem_singleton_self _))
  mem_iff r := by
    rw [SortedSet.mem_ofList, List.mem_singleton]
    constructor
    · rintro rfl
      exact ⟨⟨⟨f, hf, rfl⟩, hroot⟩, .refl⟩
    · rintro ⟨-, hreach⟩
      rcases Relation.ReflTransGen.cases_tail hreach with heq | ⟨source, -, hrefers⟩
      · exact heq.symm
      · exact absurd hrefers (hroot source)

/-- A fact that others refer to is reached from the roots of these. -/
theorem RootsOf.of_sources {owners : Ownership} {id : FactId} {sources : List FactId}
    (hne : sources ≠ []) (hsources : ∀ source, source ∈ sources ↔ RefersIn log source id)
    (hown : ∀ source ∈ sources, ∃ own, owners.get? source = some own ∧ RootsOf log source own) :
    RootsOf log id (SortedSet.ofList ((sources.filterMap owners.get?).flatMap (·.toList))) := by
  have hmem : ∀ r,
      r ∈ (SortedSet.ofList ((sources.filterMap owners.get?).flatMap (·.toList))).toList ↔
        ∃ source ∈ sources, ∃ own, owners.get? source = some own ∧ r ∈ own.toList := by
    intro r
    simp only [SortedSet.mem_ofList, List.mem_flatMap, List.mem_filterMap]
    constructor
    · rintro ⟨own, ⟨source, hsource, hget⟩, hr⟩
      exact ⟨source, hsource, own, hget, hr⟩
    · rintro ⟨source, hsource, own, hget, hr⟩
      exact ⟨own, ⟨source, hsource, hget⟩, hr⟩
  constructor
  · obtain ⟨source, hsource⟩ := List.exists_mem_of_ne_nil _ hne
    obtain ⟨own, hget, hroots⟩ := hown source hsource
    obtain ⟨r, hr⟩ := List.exists_mem_of_ne_nil _ hroots.nonempty
    exact List.ne_nil_of_mem ((hmem r).mpr ⟨source, hsource, own, hget, hr⟩)
  · intro r
    rw [hmem]
    constructor
    · rintro ⟨source, hsource, own, hget, hr⟩
      obtain ⟨own', hget', hroots⟩ := hown source hsource
      cases hget.symm.trans hget'
      obtain ⟨hroot, hreach⟩ := (hroots.mem_iff r).mp hr
      exact ⟨hroot, hreach.tail ((hsources source).mp hsource)⟩
    · rintro ⟨hroot, hreach⟩
      rcases Relation.ReflTransGen.cases_tail hreach with rfl | ⟨source, hreach, hrefers⟩
      · -- a root is not referred to, but this fact is
        obtain ⟨source, hsource⟩ := List.exists_mem_of_ne_nil _ hne
        exact absurd ((hsources source).mp hsource) (hroot.2 source)
      · have hsource := (hsources source).mpr hrefers
        obtain ⟨own, hget, hroots⟩ := hown source hsource
        exact ⟨source, hsource, own, hget, (hroots.mem_iff r).mpr ⟨hroot, hreach⟩⟩

/-- What refers to a fact stands after it. -/
theorem refersIn_after {before after : List Fact} {f : Fact}
    (hordered : Ordered (before ++ f :: after))
    (hasc : (before ++ f :: after).Pairwise (·.id.number < ·.id.number)) {source : FactId}
    (h : RefersIn (before ++ f :: after) source f.id) : ∃ g ∈ after, g.id = source := by
  obtain ⟨g, hg, rfl, hr⟩ := h
  have hlt : f.id.number < g.id.number := (hordered.references g hg _ hr).2
  rcases List.mem_append.mp hg with hbefore | hg
  · have hlt' := (List.pairwise_append.mp hasc).2.2 g hbefore f (List.mem_cons_self ..)
    exact absurd (UInt64.lt_trans hlt hlt') (UInt64.lt_irrefl _)
  · rcases List.mem_cons.mp hg with rfl | hafter
    · exact absurd hlt (UInt64.lt_irrefl _)
    · exact ⟨g, hafter, rfl⟩

/-- One step of the pass settles one more fact. -/
theorem Settled.addFact {before after : List Fact} {f : Fact} {owners : Ownership}
    (hordered : Ordered (before ++ f :: after))
    (hasc : (before ++ f :: after).Pairwise (·.id.number < ·.id.number))
    (h : Settled (before ++ f :: after) after owners) :
    Settled (before ++ f :: after) (f :: after)
      (addFact ((before ++ f :: after).foldl noteFact ∅) owners f.id) := by
  have hf : f ∈ before ++ f :: after := List.mem_append_right _ (List.mem_cons_self ..)
  obtain ⟨own, heq, hroots⟩ : ∃ own,
      Ownership.addFact ((before ++ f :: after).foldl noteFact ∅) owners f.id =
        owners.insert f.id own ∧ RootsOf (before ++ f :: after) f.id own := by
    refine ⟨_, rfl, ?_⟩
    split
    · rename_i hnone
      exact .of_root hf (not_refersIn_of_none hnone)
    · rename_i sources hsome
      obtain ⟨hne, hsources⟩ := mem_of_some hsome
      refine .of_sources hne hsources fun source hsource => ?_
      obtain ⟨g, hg, rfl⟩ := refersIn_after hordered hasc ((hsources source).mp hsource)
      exact h.met g hg
  rw [heq]
  constructor
  · intro g hg
    rw [SortedMap.get?_insert]
    by_cases hid : g.id = f.id
    · exact ⟨own, if_pos hid, hid ▸ hroots⟩
    · rw [if_neg hid]
      rcases List.mem_cons.mp hg with rfl | hg
      · exact absurd rfl hid
      · exact h.met g hg
  · intro id hid
    rw [SortedMap.get?_insert, if_neg (hid f (List.mem_cons_self ..)).symm]
    exact h.unmet id fun g hg => hid g (List.mem_cons_of_mem _ hg)

/-- The pass settles the facts it has met, from the end of the log on. -/
theorem settled_foldr (before after : List Fact) (hordered : Ordered (before ++ after))
    (hasc : (before ++ after).Pairwise (·.id.number < ·.id.number)) :
    Settled (before ++ after) after
      ((after.map (·.id)).foldr (fun id owners =>
        addFact ((before ++ after).foldl noteFact ∅) owners id) ∅) := by
  induction after generalizing before with
  | nil => exact ⟨fun f hf => absurd hf List.not_mem_nil, fun id _ => rfl⟩
  | cons f after ih =>
      have hsplit : before ++ f :: after = (before ++ [f]) ++ after := by simp
      have hrest := ih (before ++ [f]) (hsplit ▸ hordered) (hsplit ▸ hasc)
      rw [← hsplit] at hrest
      exact hrest.addFact hordered hasc

theorem settled_ofFacts (hordered : Ordered log) (hroom : log.length < 2 ^ 64 - 1024) :
    Settled log log (ofFacts log) := by
  rw [ofFacts, List.foldl_reverse]
  exact settled_foldr [] log hordered (hordered.numbered.pairwise hroom)

/-! ## Stores -/

section Stores

variable {σ : Type} [FactStore σ] [LawfulFactStore σ] {s : σ}

open LawfulFactStore

theorem compute_eq (hholds : Holds s log) (hroom : log.length < 2 ^ 64 - 1024) :
    compute s = .ok (ofFacts log) := by
  have hget : (FactStore.ids s).mapM (FactStore.get s) = .ok log := by
    rw [ids_eq_map hholds hroom, Outcome.mapM_ok_iff, List.forall₂_map_left_iff]
    refine List.forall₂_same.mpr fun f hf => ?_
    rw [FactStore.get, (lookup_eq_some_iff hholds hroom).mpr ⟨hf, rfl⟩]
  rw [compute, hget]
  rfl

theorem refers_iff (hholds : Holds s log) (hroom : log.length < 2 ^ 64 - 1024) :
    FactStore.Refers s = RefersIn log := by
  funext source target
  refine propext (exists_congr fun f => ?_)
  rw [lookup_eq_some_iff hholds hroom, Fact.references, List.mem_append,
    Value.mem_references_iff, Value.mem_references_iff, and_assoc]

theorem isRoot_iff (hholds : Holds s log) (hroom : log.length < 2 ^ 64 - 1024) {id : FactId} :
    FactStore.IsRoot s id ↔ RootIn log id := by
  rw [FactStore.IsRoot, RootIn, refers_iff hholds hroom, Option.isSome_iff_exists]
  simp only [lookup_eq_some_iff hholds hroom]

end Stores

/-- Whatever operations made a store, its owners can be computed. Every fact has some, and they
are the roots from which references lead to it, over any number of facts. What is not in the
store has none. -/
theorem compute_reaching_roots {σ : Type} [FactStore σ] [LawfulFactStore σ] (ops : List StoreOp)
    (hkept : ∀ op ∈ ops, ∀ c ∈ op.content?, LawfulFactStore.Keeps σ c) {s : σ}
    (hstore : s = ((.new : StoreSession σ).run ops).store)
    (hroom : FactStore.size s < 2 ^ 64 - 1024) :
    ∃ owners, compute s = .ok owners ∧
      (∀ id, (FactStore.lookup s id).isSome → ∃ own, owners.get? id = some own ∧ own.toList ≠ [] ∧
        ∀ r, r ∈ own.toList ↔
          FactStore.IsRoot s r ∧ Relation.ReflTransGen (FactStore.Refers s) r id) ∧
      ∀ id, FactStore.lookup s id = none → owners.get? id = none := by
  subst hstore
  have hapart := StoreSession.run_apart ops hkept hroom
  generalize FactStore.committed ((StoreSession.new : StoreSession σ).run ops).store = log at hapart
  have hlen : log.length < 2 ^ 64 - 1024 := by
    have hsize := LawfulFactStore.size_eq hapart.holds
    omega
  have hsettled := settled_ofFacts hapart.distinguished.ordered hlen
  refine ⟨ofFacts log, compute_eq hapart.holds hlen, fun id hid => ?_, fun id hid => ?_⟩
  · obtain ⟨f, hf⟩ := Option.isSome_iff_exists.mp hid
    obtain ⟨hmem, rfl⟩ := (lookup_eq_some_iff hapart.holds hlen).mp hf
    obtain ⟨own, hget, hroots⟩ := hsettled.met f hmem
    refine ⟨own, hget, hroots.nonempty, fun r => ?_⟩
    rw [hroots.mem_iff, isRoot_iff hapart.holds hlen, refers_iff hapart.holds hlen]
  · refine hsettled.unmet id fun f hf hid' => ?_
    rw [(lookup_eq_some_iff hapart.holds hlen).mpr ⟨hf, hid'⟩] at hid
    cases hid

/-- A fact that two roots share: one refers to it by way of another fact and directly, the
other one twice. -/
def sharedLeaf : List StoreOp :=
  [.insert ⟨"sys.Blob", 1⟩ (.string "x") .unit,
    .insert ⟨"test.Pair", 1⟩ (.record [.fact ⟨1024⟩]) .unit,
    .insert ⟨"test.Pair", 1⟩ (.record [.fact ⟨1025⟩, .fact ⟨1024⟩]) .unit,
    .insert ⟨"test.Pair", 1⟩ (.record [.fact ⟨1024⟩]) (.fact ⟨1024⟩)]

theorem compute_reaching_roots_shared : ∃ own : SortedSet FactId,
    own.toList = [⟨1026⟩, ⟨1027⟩] ∧ ∀ r, r ∈ own.toList ↔
      FactStore.IsRoot ((.new : StoreSession MemoryStore).run sharedLeaf).store r ∧
        Relation.ReflTransGen
          (FactStore.Refers ((.new : StoreSession MemoryStore).run sharedLeaf).store) r ⟨1024⟩ := by
  obtain ⟨owners, howners, hown, -⟩ := compute_reaching_roots (σ := MemoryStore) sharedLeaf
    (fun _ _ _ _ => trivial) rfl (by decide +kernel)
  obtain ⟨own, hget, -, hroots⟩ := hown ⟨1024⟩ (by decide +kernel)
  have hvalue : (compute ((.new : StoreSession MemoryStore).run sharedLeaf).store).toOption.bind
      (fun o => (o.get? ⟨1024⟩).map (·.toList)) = some [⟨1026⟩, ⟨1027⟩] := by
    decide +kernel
  rw [howners] at hvalue
  have hlist : own.toList = [⟨1026⟩, ⟨1027⟩] := by
    simpa [Except.toOption, hget] using hvalue
  exact ⟨own, hlist, hroots⟩

end Ownership

end Factbase
