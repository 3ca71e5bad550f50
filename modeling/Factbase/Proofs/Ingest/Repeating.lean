import Factbase.Proofs.Ingest.Dumps
import Factbase.Proofs.Ingest.Following
import Factbase.Proofs.Store.Digests

/-!
# Files that are staged again

Once the batch of a file is committed, the store finds each of its facts by
its digest. So when the file is staged again, every fact in it is found
where it was staged or found before, and nothing is staged.

That the second run does what the first one did is shown backwards
(`Redoes`): what a step leaves behind has been committed, so what it started
from has, and then it can be taken again with an empty batch.
-/

namespace Factbase

/-! ## Steps that are taken again -/

section Redoing

variable {τ ε α β : Type}

/-- Where a step ends in a state with a property, it began in one, and another step does the same
from the state that is there instead of that one. -/
def Redoes (P : τ → Prop) (instead : τ → τ) (x x' : StateT τ (Except ε) α) : Prop :=
  ∀ s a t, x s = .ok (a, t) → P t → P s ∧ x' (instead s) = .ok (a, instead t)

namespace Redoes

variable {P : τ → Prop} {instead : τ → τ} {x x' : StateT τ (Except ε) α}

theorem pure (a : α) : Redoes P instead (pure a : StateT τ (Except ε) α) (pure a) := by
  intro s b t h ht
  obtain ⟨rfl, rfl⟩ := Outcome.stateT_pure_ok_iff.mp h
  exact ⟨ht, rfl⟩

theorem throw (e : ε) (x' : StateT τ (Except ε) α) : Redoes P instead (throw e) x' :=
  fun _ _ _ h => (Outcome.stateT_throw_ok_iff.mp h).elim

theorem bind (hx : Redoes P instead x x') {k k' : α → StateT τ (Except ε) β}
    (hk : ∀ a, Redoes P instead (k a) (k' a)) : Redoes P instead (x >>= k) (x' >>= k') := by
  intro s b t h ht
  obtain ⟨a, t₁, ha, hb⟩ := Outcome.stateT_bind_ok_iff.mp h
  obtain ⟨ht₁, hb'⟩ := hk a t₁ b t hb ht
  obtain ⟨hs, ha'⟩ := hx s a t₁ ha ht₁
  exact ⟨hs, Outcome.stateT_bind_ok_iff.mpr ⟨a, _, ha', hb'⟩⟩

theorem map (f : α → β) (hx : Redoes P instead x x') : Redoes P instead (f <$> x) (f <$> x') := by
  rw [map_eq_pure_bind, map_eq_pure_bind]
  exact hx.bind fun a => .pure (f a)

theorem mapM {γ : Type} {f f' : γ → StateT τ (Except ε) α} {l : List γ}
    (h : ∀ c ∈ l, Redoes P instead (f c) (f' c)) : Redoes P instead (l.mapM f) (l.mapM f') := by
  induction l with
  | nil => exact .pure []
  | cons c l ih =>
      obtain ⟨hc, hl⟩ := List.forall_mem_cons.mp h
      rw [List.mapM_cons, List.mapM_cons]
      exact hc.bind fun a => (ih hl).bind fun as => .pure (a :: as)

end Redoes

end Redoing

namespace Ty

variable {τ : Type} {P : τ → Prop} {instead : τ → τ} {read read' : ReadReference τ}

mutual
/-- A value is read again where its references are. -/
theorem redoes_decodeJson (hread : ∀ j p, Redoes P instead (read j p) (read' j p)) :
    (ty : Ty) → (path : List String) → (j : Json) →
      Redoes P instead (ty.decodeJson read path j) (ty.decodeJson read' path j)
  | .byte, path, j => by
      unfold decodeJson
      split
      · split
        · exact .pure _
        · exact .throw _ _
      · exact .throw _ _
  | .nat, path, j | .bool, path, j => by
      unfold decodeJson
      split
      · exact .pure _
      · exact .throw _ _
  | .string, path, j => by
      unfold decodeJson
      split
      · split
        · exact .throw _ _
        · exact .pure _
      · exact .throw _ _
  | .array elem, path, j => by
      unfold decodeJson
      split
      · exact (Redoes.mapM fun item _ => redoes_decodeJson hread elem path item).bind fun _ => .pure _
      · exact .throw _ _
  | .record fields, path, j => by
      unfold decodeJson
      split
      · split
        · exact .throw _ _
        · exact (redoes_decodeFields hread fields path _).bind fun _ => .pure _
      · exact .throw _ _
  | .sum alts, path, j => by
      unfold decodeJson
      split
      · split
        · split
          · exact .pure _
          · exact .throw _ _
        · exact .throw _ _
      · exact redoes_decodeAlternative hread alts path _ _ 0
      · exact .throw _ _
      · exact .throw _ _
  | .predicate p, path, j => by
      intro s v t h ht
      unfold decodeJson at h ⊢
      cases hid : read j p s with
      | error cause =>
          simp only [hid] at h
          cases h
      | ok r =>
          obtain ⟨id, t'⟩ := r
          simp only [hid] at h
          cases h
          obtain ⟨hs, hid'⟩ := hread j p s id t hid ht
          exact ⟨hs, by simp only [hid']⟩

theorem redoes_decodeFields (hread : ∀ j p, Redoes P instead (read j p) (read' j p)) :
    (fields : List Field) → (path : List String) → (members : List (String × Json)) →
      Redoes P instead (decodeFields read path fields members) (decodeFields read' path fields members)
  | [], path, members => by
      unfold decodeFields
      exact .pure _
  | ⟨name, ty, declared⟩ :: fields, path, members => by
      unfold decodeFields
      have hrest (v : Value) := (redoes_decodeFields hread fields path members).bind
        fun vs => Redoes.pure (ε := Rejection) (v :: vs)
      dsimp only
      split
      · exact (redoes_decodeJson hread ty _ _).bind hrest
      · split
        · exact (Redoes.pure _).bind hrest
        · exact (Redoes.throw _ _).bind hrest

theorem redoes_decodeAlternative (hread : ∀ j p, Redoes P instead (read j p) (read' j p)) :
    (alts : List Field) → (path : List String) → (name : String) → (payload : Json) → (index : Nat) →
      Redoes P instead (decodeAlternative read path name payload index alts)
        (decodeAlternative read' path name payload index alts)
  | [], path, name, payload, index => by
      unfold decodeAlternative
      exact .throw _ _
  | ⟨alt, ty, _⟩ :: alts, path, name, payload, index => by
      unfold decodeAlternative
      split
      · exact (redoes_decodeJson hread ty _ payload).map _
      · exact redoes_decodeAlternative hread alts path name payload (index + 1)
end

end Ty

/-! ## Staging again -/

namespace Staging

variable {σ τ : Type} [FactStore σ] [FactStore τ] {store : σ} {later : τ} {b : FactBatch}
  {schema : Schema} {insert insert' : Insert}

/-- What has been staged, with another batch. -/
def onBatch (b : FactBatch) (s : Staging) : Staging := { s with batch := b }

/-- A store finds the staged facts, under the ids that they were given. -/
def Known (later : τ) (s : Staging) : Prop :=
  ∀ e ∈ s.batch.staged, FactStore.find later e.1 = some e.2.id

/-- A later store finds what the store finds. -/
def Finds (store : σ) (later : τ) : Prop :=
  ∀ digest id, FactStore.find store digest = some id → FactStore.find later digest = some id

/-- What a store finds is not staged. -/
theorem stage_found (hbuilding : FactStore.state later = .building) {p : Predicate} {k v : Value}
    {id : FactId} (hfind : FactStore.find later (contentDigest p k v) = some id) :
    FactStore.stage later b p k v = .ok (b, id) := by
  unfold FactStore.stage
  simp [hbuilding, hfind]

/-- A fact that was staged for a store is found in one that knows it. -/
theorem redoes_insert (hfinds : Finds store later) (hbuilding : FactStore.state later = .building)
    (b : FactBatch) (p : Predicate) (k v : Value) :
    Redoes (Known later) (onBatch b) (Staging.insert store p k v) (Staging.insert later p k v) := by
  intro s id t h ht
  have hfound (hfind : FactStore.find later (contentDigest p k v) = some id) :
      Staging.insert later p k v (onBatch b s) = .ok (id, onBatch b s) := by
    unfold Staging.insert
    rw [show (onBatch b s).batch = b from rfl, stage_found hbuilding hfind]
    rfl
  unfold Staging.insert at h
  split at h
  · rename_i b' id' hstage
    cases h
    rcases stage_cases hstage with ⟨rfl, hfind⟩ | ⟨rfl, hfind⟩ | ⟨rfl, rfl, -, -, -⟩
    · exact ⟨ht, hfound (hfinds _ _ hfind)⟩
    · refine ⟨ht, hfound ?_⟩
      obtain ⟨e, he, rfl⟩ := Option.map_eq_some_iff.mp hfind
      have hdigest : e.1 = contentDigest p k v := by simpa using List.find?_some he
      exact hdigest ▸ ht e (List.mem_of_find?_eq_some he)
    · obtain ⟨hbefore, hown⟩ := List.forall_mem_append.mp ht
      exact ⟨hbefore, hfound (hown _ (List.mem_singleton_self _))⟩
  · cases h

variable {P : Staging → Prop}

/-- A property of batches. -/
def OfBatch (P : Staging → Prop) : Prop := ∀ b labels labels', P ⟨b, labels⟩ → P ⟨b, labels'⟩

theorem ofBatch_known (later : τ) : OfBatch (Known later) := fun _ _ _ h => h

theorem redoes_labelled (b : FactBatch) (label : UInt64) (p : Predicate) :
    Redoes P (onBatch b) (labelled label p) (labelled label p) := by
  intro s id t h ht
  obtain ⟨rfl, actual, hlabel, hname⟩ := labelled_eq h
  exact ⟨ht, labelled_of_get? hlabel hname⟩

theorem redoes_setLabel (hP : OfBatch P) (b : FactBatch) (label : UInt64) (id : FactId) (p : Predicate) :
    Redoes P (onBatch b) (setLabel label id p) (setLabel label id p) := by
  intro s u t h ht
  obtain ⟨hsame, rfl⟩ := setLabel_eq h
  exact ⟨hP _ _ _ ht, setLabel_ok (s := onBatch b s) hsame⟩

/-- Facts are inserted again, with another batch. -/
def RedoesInsert (P : Staging → Prop) (b : FactBatch) (insert insert' : Insert) : Prop :=
  ∀ p k v, Redoes P (onBatch b) (insert p k v) (insert' p k v)

theorem redoes_define (hP : OfBatch P) (hinsert : RedoesInsert P b insert insert')
    {read read' : ReadReference Staging} (hread : ∀ j p, Redoes P (onBatch b) (read j p) (read' j p))
    (d : Definition) (label : Option UInt64) (key : Json) (value : Option Json) :
    Redoes P (onBatch b) (define insert read d label key value) (define insert' read' d label key value) := by
  have hput (k v : Value) : Redoes P (onBatch b) (putLabelled insert d.predicate label k v)
      (putLabelled insert' d.predicate label k v) := by
    refine (hinsert d.predicate k v).bind fun id => ?_
    cases label with
    | none => exact .pure id
    | some l => exact (redoes_setLabel hP b l id d.predicate).bind fun _ => .pure id
  unfold define
  refine (Ty.redoes_decodeJson hread d.key [] key).bind fun k => ?_
  cases value with
  | some j => exact (Ty.redoes_decodeJson hread d.value [] j).bind (hput k)
  | none =>
      dsimp only
      split
      · exact (Redoes.pure _).bind (hput k)
      · exact (Redoes.throw _ _).bind (hput k)

theorem redoes_reference
    {nested nested' : Option (Definition → Option UInt64 → Json → Option Json → Step FactId)}
    (hnested : Option.Rel (fun define define' => ∀ d label key value,
      Redoes P (onBatch b) (define d label key value) (define' d label key value)) nested nested')
    (j : Json) (p : Predicate) :
    Redoes P (onBatch b) (reference schema nested j p) (reference schema nested' j p) := by
  unfold reference
  cases j with
  | nat label => exact redoes_labelled b label p
  | object members =>
      have hlabel : Redoes P (onBatch b) (memberLabel members) (memberLabel members) := by
        unfold memberLabel
        split
        · exact .pure _
        · exact .throw _ _
        · exact .pure _
      refine hlabel.bind fun label => ?_
      cases hnested with
      | none =>
          cases members.lookup "key" <;> cases label
          · exact .throw _ _
          · exact redoes_labelled b _ p
          · exact .throw _ _
          · exact .throw _ _
      | some hdefine =>
          cases members.lookup "key" with
          | none =>
              cases label with
              | none => exact .throw _ _
              | some label => exact redoes_labelled b label p
          | some key =>
              dsimp only
              split
              · exact hdefine _ label key _
              · exact .throw _ _
  | _ => exact .throw _ _

theorem redoes_readReference (hP : OfBatch P) (hinsert : RedoesInsert P b insert insert')
    (depth : Nat) (j : Json) (p : Predicate) :
    Redoes P (onBatch b) (readReference schema insert depth j p) (readReference schema insert' depth j p) := by
  induction depth generalizing j p with
  | zero => exact redoes_reference .none j p
  | succ depth ih => exact redoes_reference (.some (redoes_define hP hinsert ih)) j p

theorem redoes_entry (hP : OfBatch P) (hinsert : RedoesInsert P b insert insert') (d : Definition)
    (e : FactEntry) : Redoes P (onBatch b) (entry schema insert d e) (entry schema insert' d e) :=
  redoes_define hP hinsert (redoes_readReference hP hinsert _) d e.label e.key e.value

end Staging

namespace FactFile

variable {P : Staging → Prop} {b : FactBatch} {schema : Schema} {insert insert' : Staging.Insert}

open Staging

theorem redoes_stageEntries (hP : OfBatch P) (hinsert : RedoesInsert P b insert insert')
    {d : Definition} {n : Nat} {es : List FactEntry} {s t : Staging}
    (h : stageEntries schema insert d n es s = .ok t) (ht : P t) :
    P s ∧ stageEntries schema insert' d n es (onBatch b s) = .ok (onBatch b t) := by
  induction es generalizing n s with
  | nil =>
      cases h
      exact ⟨ht, rfl⟩
  | cons e es ih =>
      rw [stageEntries] at h ⊢
      split at h
      · rename_i id u hentry
        obtain ⟨hu, hrest⟩ := ih h
        obtain ⟨hs, hentry'⟩ := redoes_entry hP hinsert d e s id u hentry hu
        rw [hentry']
        exact ⟨hs, hrest⟩
      · cases h

theorem redoes_stageGroups (hP : OfBatch P) (hinsert : RedoesInsert P b insert insert')
    {gs : List FactGroup} {s t : Staging} (h : stageGroups schema insert gs s = .ok t) (ht : P t) :
    P s ∧ stageGroups schema insert' gs (onBatch b s) = .ok (onBatch b t) := by
  unfold stageGroups at h ⊢
  induction gs generalizing s with
  | nil =>
      cases h
      exact ⟨ht, rfl⟩
  | cons g gs ih =>
      rw [List.foldlM_cons] at h ⊢
      obtain ⟨u, hgroup, hrest⟩ := Outcome.bind_ok_iff.mp h
      obtain ⟨hu, hrest'⟩ := ih hrest
      obtain ⟨d, hd, hentries⟩ := Outcome.bind_ok_iff.mp hgroup
      obtain ⟨hs, hentries'⟩ := redoes_stageEntries hP hinsert hentries hu
      refine ⟨hs, Outcome.bind_ok_iff.mpr ⟨_, ?_, hrest'⟩⟩
      exact Outcome.bind_ok_iff.mpr ⟨d, hd, hentries'⟩

end FactFile

/-! ## What references resolve to -/

/-- A reference, and the fact that it stands for. -/
structure Resolution where
  predicate : Predicate
  reference : Json
  fact : FactId

namespace Staging

/-- Resolve references in turn. What is resolved `inside` each of them comes before it. -/
def resolveAll (read : ReadReference Staging) (inside : Predicate → Json → Staging → List Resolution) :
    List (Predicate × Json) → Staging → List Resolution
  | [], _ => []
  | (p, j) :: places, s =>
    match read j p s with
    | .ok (id, t) => inside p j s ++ ⟨p, j, id⟩ :: resolveAll read inside places t
    | .error _ => []

/-- What is resolved inside a reference: the references of a definition on the spot. -/
def resolveInside (schema : Schema) (insert : Insert) :
    Nat → Predicate → Json → Staging → List Resolution
  | depth + 1, p, .object members, s =>
    match members.lookup "key", schema.get? p with
    | some key, some d =>
      resolveAll (readReference schema insert depth) (resolveInside schema insert depth)
        (d.places key (members.lookup "value")) s
    | _, _ => []
  | _, _, _, _ => []

/-- Resolve the references of entries, and the entries themselves. -/
def resolveEntries (schema : Schema) (insert : Insert) (d : Definition) :
    List FactEntry → Staging → List Resolution
  | [], _ => []
  | e :: es, s =>
    match entry schema insert d e s with
    | .ok (id, t) =>
      let depth := max e.key.depth ((e.value.map Json.depth).getD 0)
      resolveAll (readReference schema insert depth) (resolveInside schema insert depth)
          (d.places e.key e.value) s ++
        ⟨d.predicate, e.key, id⟩ :: resolveEntries schema insert d es t
    | .error _ => []

/-- Resolve the references and the entries of groups. -/
def resolveGroups (schema : Schema) (insert : Insert) : List FactGroup → Staging → List Resolution
  | [], _ => []
  | g :: gs, s =>
    match FactFile.definitionOf schema g.predicate with
    | .ok d =>
      resolveEntries schema insert d g.facts s ++
        match FactFile.stageEntries schema insert d 0 g.facts s with
        | .ok t => resolveGroups schema insert gs t
        | .error _ => []
    | .error _ => []

variable {P : Staging → Prop} {b : FactBatch} {schema : Schema} {insert insert' : Insert}

theorem resolveAll_again {read read' : ReadReference Staging}
    {inside inside' : Predicate → Json → Staging → List Resolution}
    (hread : ∀ j p, Redoes P (onBatch b) (read j p) (read' j p))
    (hinside : ∀ p j s id t, read j p s = .ok (id, t) → P t → inside' p j (onBatch b s) = inside p j s)
    {places : List (Predicate × Json)} {s t : Staging} (h : Ty.ReadsAll read places s t) (ht : P t) :
    P s ∧ resolveAll read' inside' places (onBatch b s) = resolveAll read inside places s := by
  induction h with
  | nil s => exact ⟨ht, rfl⟩
  | @cons p j id rest s t u hfirst _ ih =>
      obtain ⟨ht₁, hrest⟩ := ih ht
      obtain ⟨hs, hfirst'⟩ := hread j p s id t hfirst ht₁
      refine ⟨hs, ?_⟩
      rw [resolveAll, resolveAll, hfirst, hfirst']
      dsimp only
      rw [hinside p j s id t hfirst ht₁, hrest]

/-- The references of a definition are resolved again. -/
theorem resolveAll_define (hP : OfBatch P) (hinsert : RedoesInsert P b insert insert')
    {read read' : ReadReference Staging} {inside inside' : Predicate → Json → Staging → List Resolution}
    (hread : ∀ j p, Redoes P (onBatch b) (read j p) (read' j p))
    (hinside : ∀ p j s id t, read j p s = .ok (id, t) → P t → inside' p j (onBatch b s) = inside p j s)
    {d : Definition} {label : Option UInt64} {key : Json} {value : Option Json} {s t : Staging} {id : FactId}
    (h : define insert read d label key value s = .ok (id, t)) (ht : P t) :
    resolveAll read' inside' (d.places key value) (onBatch b s) =
      resolveAll read inside (d.places key value) s := by
  obtain ⟨k, v, t₁, u, hreads, hid, hbatch⟩ := define_reads h
  have hu : P u := by
    obtain ⟨bt, labels⟩ := t
    obtain rfl : bt = u.batch := hbatch
    exact hP _ _ _ ht
  exact (resolveAll_again hread hinside hreads (hinsert d.predicate k v t₁ id u hid hu).1).2

/-- What is resolved inside a reference is resolved again. The induction is on how deep definitions
may be nested. -/
theorem resolveInside_again (hP : OfBatch P) (hinsert : RedoesInsert P b insert insert') (depth : Nat)
    (p : Predicate) (j : Json) (s : Staging) (id : FactId) (t : Staging)
    (h : readReference schema insert depth j p s = .ok (id, t)) (ht : P t) :
    resolveInside schema insert' depth p j (onBatch b s) = resolveInside schema insert depth p j s := by
  induction depth generalizing p j s id t with
  | zero => rfl
  | succ depth ih =>
      cases j with
      | object members =>
          rw [resolveInside, resolveInside]
          rcases reference_ok h with
            ⟨hnone, -⟩ | ⟨members', key, d, label, define, hj, hkey, hd, hdefine, hrun⟩
          · rw [hnone members rfl]
          · cases hj
            cases hdefine
            rw [hkey, hd]
            exact resolveAll_define hP hinsert (redoes_readReference hP hinsert depth) ih hrun ht
      | _ => rfl

theorem resolveEntries_again (hP : OfBatch P) (hinsert : RedoesInsert P b insert insert')
    {d : Definition} {n : Nat} {es : List FactEntry} {s t : Staging}
    (h : FactFile.stageEntries schema insert d n es s = .ok t) (ht : P t) :
    resolveEntries schema insert' d es (onBatch b s) = resolveEntries schema insert d es s := by
  induction es generalizing n s with
  | nil => rfl
  | cons e es ih =>
      rw [FactFile.stageEntries] at h
      split at h
      · rename_i id u hentry
        obtain ⟨hu, -⟩ := FactFile.redoes_stageEntries hP hinsert h ht
        obtain ⟨hs, hentry'⟩ := redoes_entry hP hinsert d e s id u hentry hu
        rw [resolveEntries, resolveEntries, hentry, hentry']
        dsimp only
        rw [ih h, resolveAll_define hP hinsert (redoes_readReference hP hinsert _)
          (resolveInside_again hP hinsert _) hentry hu]
      · cases h

theorem resolveGroups_again (hP : OfBatch P) (hinsert : RedoesInsert P b insert insert')
    {gs : List FactGroup} {s t : Staging} (h : FactFile.stageGroups schema insert gs s = .ok t)
    (ht : P t) : resolveGroups schema insert' gs (onBatch b s) = resolveGroups schema insert gs s := by
  induction gs generalizing s with
  | nil => rfl
  | cons g gs ih =>
      obtain ⟨u, hgroup, hrest⟩ := Outcome.bind_ok_iff.mp h
      obtain ⟨hu, -⟩ := FactFile.redoes_stageGroups hP hinsert hrest ht
      obtain ⟨d, hd, hentries⟩ := Outcome.bind_ok_iff.mp hgroup
      obtain ⟨-, hentries'⟩ := FactFile.redoes_stageEntries hP hinsert hentries hu
      rw [resolveGroups, resolveGroups, hd]
      dsimp only
      rw [hentries, hentries', resolveEntries_again hP hinsert hentries hu]
      exact congrArg _ (ih hrest)

end Staging

namespace FactFile

variable {σ : Type} [FactStore σ]

/-- The facts that the references and the entries of a file stand for when the file is staged. -/
def resolutions (f : FactFile) (schema : Schema) (store : σ) : List Resolution :=
  Staging.resolveGroups schema (Staging.insert store) f.groups ⟨FactStore.newBatch store, ∅⟩

/-- The facts that the numbers in a file stand for once the file has been staged. -/
def labels? (f : FactFile) (schema : Schema) (store : σ) :
    Option (SortedMap UInt64 (FactId × Predicate)) :=
  (stageGroups schema (Staging.insert store) f.groups ⟨FactStore.newBatch store, ∅⟩).toOption.map (·.labels)

variable [LawfulFactStore σ] {schema : Schema} {f : FactFile} {b : FactBatch}

open LawfulFactStore

/-- The batch of a file goes on where the log of the store ends. -/
theorem stage_prolongs {w : StoreSession σ} {log : List Fact} (h : w.Apart log)
    (hstage : f.stage schema w.store = .ok b) (hkept : ∀ fact ∈ b.facts, Keeps σ fact.content) :
    b.Prolongs (Keeps σ) log := by
  have hnew := h.newBatch
  rw [List.take_length] at hnew
  refine stage_preserves (P := fun b => (∀ fact ∈ b.facts, Keeps σ fact.content) → b.Prolongs (Keeps σ) log)
    (fun b b' p k v id hb hstep hkept => ?_) (fun _ => hnew) hstage hkept
  rcases stage_cases hstep with ⟨rfl, -⟩ | ⟨rfl, -⟩ | ⟨rfl, -, hstore, hbatch, hdangling⟩
  · exact hb hkept
  · exact hb hkept
  · rw [FactBatch.facts_push] at hkept
    obtain ⟨hbefore, hown⟩ := List.forall_mem_append.mp hkept
    exact (hb hbefore).push (hown _ (List.mem_singleton_self _))
      (digest_not_mem_of_find_none h.holds hstore) hbatch hdangling

/-- A file that is staged again, for a store that its facts were committed to, whatever else has
been done to the store in between, leaves its batch empty. All numbers, definitions on the spot and
entries in it stand for the facts that they stood for the first time. -/
theorem stage_again (ops between more : List StoreOp) {store' : σ}
    (hkept : ∀ op ∈ ops ++ between ++ more, ∀ c ∈ op.content?, Keeps σ c)
    (hstage : f.stage schema ((.new : StoreSession σ).run ops).store = .ok b)
    (hfacts : ∀ fact ∈ b.facts, Keeps σ fact.content)
    (hcommit : FactStore.commit (((.new : StoreSession σ).run ops).run between).store b = .ok store')
    (hopen : ∀ state, .setState state ∈ more → state = .building) {w : StoreSession σ}
    (hw : w =
      StoreSession.run { ((.new : StoreSession σ).run ops).run between with store := store' } more)
    (hroom : FactStore.size w.store < 2 ^ 64 - 1024) :
    f.stage schema w.store = .ok (FactStore.newBatch w.store) ∧
    f.labels? schema w.store = f.labels? schema ((.new : StoreSession σ).run ops).store ∧
    f.resolutions schema w.store = f.resolutions schema ((.new : StoreSession σ).run ops).store := by
  obtain ⟨hkept, hkeptMore⟩ := List.forall_mem_append.mp hkept
  obtain ⟨hkeptOps, hkeptBetween⟩ := List.forall_mem_append.mp hkept
  have hsize₁ := StoreSession.size_le_run ((.new : StoreSession σ).run ops) between
  have hsize₂ := size_le_commit hcommit
  have hsize₃ := StoreSession.size_le_run
    { ((.new : StoreSession σ).run ops).run between with store := store' } more
  rw [← hw] at hsize₃
  dsimp only at hsize₃
  -- the logs of the store: before the file is staged, before its batch is committed, and at last
  obtain ⟨log, h₁⟩ := StoreSession.Apart.new.run ops hkeptOps (by omega)
  rw [List.nil_append] at h₁
  obtain ⟨mid, h₂⟩ := h₁.run between hkeptBetween (by omega)
  have hlen : (log ++ mid).length < 2 ^ 64 - 1024 := by
    have := size_eq h₂.holds
    omega
  have hprolongs := stage_prolongs h₁ hstage hfacts
  obtain ⟨hholds, hlog, hsame⟩ := commit_distinguished (n := log.length) h₂.holds hlen
    (by simp) (by rwa [List.take_left]) hcommit
  have hcommitted := h₂.extend hholds hlog
  obtain ⟨rest, h₃⟩ := hcommitted.run more hkeptMore (by rw [← hw]; exact hroom)
  rw [← hw] at h₃
  have hbuilding : FactStore.state w.store = .building := by
    have hstate : FactStore.state (((.new : StoreSession σ).run ops).run between).store = .building := by
      cases hcheck : b.checkCommit _ _ with
      | ok u => exact (FactBatch.checkCommit_ok_iff.mp hcheck).1
      | error e => cases (commit_error hcheck).symm.trans hcommit
    rw [hw]
    exact hcommitted.building_run more hkeptMore (by rw [← hw]; exact hroom) (hsame.trans hstate) hopen
  have hfinds : Staging.Finds ((.new : StoreSession σ).run ops).store w.store := by
    intro digest id hfind
    obtain ⟨g, hg, rfl, rfl⟩ := h₁.of_find hfind
    exact h₃.find (by simp [hg])
  unfold stage stageBy at hstage
  obtain ⟨s, hgroups, hout⟩ := Outcome.bind_ok_iff.mp hstage
  cases hout
  replace hgroups := Outcome.mapError_ok_iff.mp hgroups
  have hknown : Staging.Known w.store s := by
    intro e he
    rw [hprolongs.digest e he]
    have hmem : e.2 ∈ s.batch.facts := List.mem_map.mpr ⟨e, he, rfl⟩
    exact h₃.find (by simp [hmem])
  have hinsert : Staging.RedoesInsert (Staging.Known w.store) (FactStore.newBatch w.store)
      (Staging.insert ((.new : StoreSession σ).run ops).store) (Staging.insert w.store) :=
    Staging.redoes_insert hfinds hbuilding _
  have hagain : stageGroups schema (Staging.insert w.store) f.groups ⟨FactStore.newBatch w.store, ∅⟩ =
      .ok (Staging.onBatch (FactStore.newBatch w.store) s) :=
    (redoes_stageGroups (Staging.ofBatch_known _) hinsert hgroups hknown).2
  refine ⟨?_, ?_, Staging.resolveGroups_again (Staging.ofBatch_known _) hinsert hgroups hknown⟩
  · unfold stage stageBy
    rw [hagain]
    rfl
  · rw [labels?, labels?, hagain, hgroups]
    rfl

end FactFile

/-! ## A team -/

/-- Ann is a lead, and so is Bob, who is defined on the spot. -/
def leadsFile : FactFile :=
  ⟨"leads", [⟨"team.Person.1", [⟨some 1, .string "Ann", none⟩]⟩,
    ⟨"team.Lead.1", [⟨none, .nat 1, none⟩, ⟨none, .object [("id", .nat 2), ("key", .string "Bob")], none⟩]⟩]⟩

/-- Bob is there already. -/
def bobOnly : StoreSession MemoryStore :=
  StoreSession.new.run [.insert ⟨"team.Person", 1⟩ (.string "Bob") .unit]

/-- Another batch is committed. -/
def cidAdded : List StoreOp :=
  [.openBatch 0, .stage 0 ⟨"team.Person", 1⟩ (.string "Cid") .unit, .commit 0]

/-- The batch of the file, and the store that has it. -/
def leadsCommitted? : Option (FactBatch × MemoryStore) := do
  let b ← (leadsFile.stage teamSchema bobOnly.store).toOption
  return (b, ← (FactStore.commit bobOnly.store b).toOption)

theorem FactFile.stage_again_leads : ∃ store : MemoryStore, FactStore.size store = 5 ∧
    leadsFile.stage teamSchema store = .ok (FactStore.newBatch store) ∧
    leadsFile.labels? teamSchema store = leadsFile.labels? teamSchema bobOnly.store ∧
    leadsFile.resolutions teamSchema store = leadsFile.resolutions teamSchema bobOnly.store := by
  have hsome : leadsCommitted?.any (fun x =>
      decide (FactStore.size (StoreSession.run { bobOnly with store := x.2 } cidAdded).store = 5)) = true := by
    decide +kernel
  obtain ⟨⟨b, store'⟩, hrun, hsize⟩ := (Option.any_eq_true _ _).mp hsome
  obtain ⟨b', hstage, hrun⟩ := Option.bind_eq_some_iff.mp hrun
  obtain ⟨store'', hcommit, hrun⟩ := Option.bind_eq_some_iff.mp hrun
  cases hrun
  replace hsize := of_decide_eq_true hsize
  exact ⟨_, hsize, stage_again [.insert ⟨"team.Person", 1⟩ (.string "Bob") .unit] [] cidAdded
    (fun _ _ _ _ => trivial) (Outcome.mem_toOption_iff.mp hstage) (fun _ _ => trivial)
    (Outcome.mem_toOption_iff.mp hcommit) (fun state hset => by simp [cidAdded] at hset) rfl
    (by dsimp only at hsize ⊢; omega)⟩

end Factbase
