import Factbase.Proofs.Query.Entering
import Mathlib.Data.List.Perm.Subperm
import Mathlib.Logic.Relation

/-!
# Chains of derived predicates

Typing a query types the bodies of the derived predicates that it uses,
and of those that these use. The bodies come one upon another: each uses
only derived predicates that had theirs before it, so that the relation
between a derived predicate and what its body uses has no cycle
(`Bodies.Stacked`). And whatever has got a body is reached from the query
by a chain of bodies that is no longer than the limit
(`Query.typed_reaches`).

There may be longer chains. The limit counts the predicates that are
being typed at one moment; a predicate whose body is known is not entered
again, however long the chains are that begin with it.
-/

namespace Factbase

namespace Bodies

/-! ## What bodies use -/

/-- The body of a derived predicate uses another predicate. -/
def Uses (bodies : Bodies) (p q : Predicate) : Prop := ∃ b, bodies.get? p = some b ∧ q ∈ b.uses

/-- What has a body has the same one among other bodies. -/
def Le (bodies bodies' : Bodies) : Prop := ∀ p b, bodies.get? p = some b → bodies'.get? p = some b

/-- Those of some predicates that are derived have bodies. -/
def Cover (s : Schema) (bodies : Bodies) (ps : List Predicate) : Prop :=
  ∀ p ∈ ps, ∀ d, s.get? p = some d → d.isDerived = true → bodies.contains p = true

/-- Bodies of derived predicates, each of which uses only those that had theirs before it. -/
inductive Stacked (s : Schema) : Bodies → Prop
  | empty : Stacked s ∅
  | push {bodies : Bodies} {p : Predicate} {d : Definition} {b : Body} : Stacked s bodies →
    s.get? p = some d → d.isDerived = true → bodies.get? p = none → Cover s bodies b.uses →
    Stacked s (SortedMap.insert bodies p b)

instance decidableUses (bodies : Bodies) (p q : Predicate) : Decidable (bodies.Uses p q) :=
  decidable_of_iff ((bodies.get? p).any (·.uses.contains q) = true) (by
    cases h : bodies.get? p <;> simp [Uses, h])

/-- Predicates of which the body of each uses the next, down to a given one. -/
def Descends (bodies : Bodies) (l : List Predicate) (p : Predicate) : Prop :=
  l.IsChain bodies.Uses ∧ l.getLast? = some p

variable {s : Schema} {bodies bodies₁ bodies' : Bodies} {p q : Predicate} {b : Body}

theorem contains_insert : (SortedMap.insert bodies p b).contains q = true ↔
    q = p ∨ bodies.contains q = true := by
  rw [SortedMap.contains, SortedMap.get?_insert]
  split
  · simp [*]
  · simp [*, SortedMap.contains]

theorem Le.contains (h : bodies.Le bodies') (hp : bodies.contains p = true) :
    bodies'.contains p = true := by
  obtain ⟨b, hb⟩ := SortedMap.contains_iff.mp hp
  exact SortedMap.contains_iff.mpr ⟨b, h p b hb⟩

theorem le_insert (hnew : bodies.get? p = none) : bodies.Le (SortedMap.insert bodies p b) := by
  intro q b' hb'
  have hne : q ≠ p := by
    rintro rfl
    cases hnew.symm.trans hb'
  rwa [SortedMap.get?_insert_of_ne hne]

theorem Cover.mono {ps : List Predicate} (h : Cover s bodies ps) (hle : bodies.Le bodies') :
    Cover s bodies' ps :=
  fun p hp d hd hderived => hle.contains (h p hp d hd hderived)

theorem Uses.mono (h : bodies.Uses p q) (hle : bodies.Le bodies') : bodies'.Uses p q :=
  h.imp fun b hb => ⟨hle p b hb.1, hb.2⟩

theorem Descends.mono {l : List Predicate} (h : bodies.Descends l p) (hle : bodies.Le bodies') :
    bodies'.Descends l p :=
  ⟨h.1.imp fun _ _ huses => huses.mono hle, h.2⟩

namespace Stacked

/-- All that the bodies use and that is derived has a body. -/
theorem closed (h : Stacked s bodies) (hb : bodies.get? p = some b) : Cover s bodies b.uses := by
  induction h generalizing p b with
  | empty => cases hb
  | push _ _ _ hnew hcover ih =>
      rw [SortedMap.get?_insert] at hb
      split at hb
      · obtain rfl := Option.some.inj hb
        exact hcover.mono (le_insert hnew)
      · exact (ih hb).mono (le_insert hnew)

/-- No body that is there uses what has none yet. -/
theorem not_uses (h : Stacked s bodies) {d : Definition} (hd : s.get? q = some d)
    (hderived : d.isDerived = true) (hnew : bodies.get? q = none) : ¬ bodies.Uses p q := by
  rintro ⟨b, hb, hq⟩
  have hin := h.closed hb q hq d hd hderived
  rw [SortedMap.contains, hnew] at hin
  cases hin

/-- The bodies use one another in no circle. -/
theorem acyclic (h : Stacked s bodies) (p : Predicate) : ¬ Relation.TransGen bodies.Uses p p := by
  induction h generalizing p with
  | empty =>
      intro hcycle
      obtain ⟨_, ⟨b, hb, -⟩, -⟩ := Relation.TransGen.head'_iff.mp hcycle
      cases hb
  | @push bodies p' d b' hstacked hd hderived hnew hcover ih =>
      -- the last of the predicates is used by none of them
      have hunused (x : Predicate) : ¬ Uses (SortedMap.insert bodies p' b') x p' := by
        rintro ⟨b, hb, hused⟩
        rw [SortedMap.get?_insert] at hb
        split at hb
        · obtain rfl := Option.some.inj hb
          have hin := hcover p' hused d hd hderived
          rw [SortedMap.contains, hnew] at hin
          cases hin
        · exact hstacked.not_uses hd hderived hnew ⟨b, hb, hused⟩
      have hpath {x y : Predicate} (hxy : Relation.TransGen (Uses (SortedMap.insert bodies p' b')) x y)
          (hx : x ≠ p') : Relation.TransGen bodies.Uses x y ∧ y ≠ p' := by
        have hedge {x y : Predicate} (hx : x ≠ p') (h : Uses (SortedMap.insert bodies p' b') x y) :
            bodies.Uses x y ∧ y ≠ p' := by
          refine ⟨?_, fun heq => hunused x (heq ▸ h)⟩
          obtain ⟨b, hb, hy⟩ := h
          exact ⟨b, by rwa [SortedMap.get?_insert_of_ne hx] at hb, hy⟩
        induction hxy with
        | single h => exact (hedge hx h).imp_left .single
        | tail _ h ih =>
            obtain ⟨hbefore, hne⟩ := ih
            obtain ⟨hlast, hne'⟩ := hedge hne h
            exact ⟨hbefore.tail hlast, hne'⟩
      intro hcycle
      have hne : p ≠ p' := by
        rintro rfl
        obtain ⟨x, -, hx⟩ := Relation.TransGen.tail'_iff.mp hcycle
        exact hunused x hx
      exact ih p (hpath hcycle hne).1

end Stacked

/-! ## Bodies that are added -/

/-- The bodies after some predicates, the `roots`, were entered: those that were there are
kept, those to `avoid` get none, and what is new is reached from a root by a chain of at most
`limit`. -/
structure Advance (s : Schema) (limit : Nat) (avoid roots : List Predicate) (bodies bodies' : Bodies) :
    Prop where
  stacked : Stacked s bodies → Stacked s bodies'
  kept : bodies.Le bodies'
  avoided : ∀ p ∈ avoid, bodies'.contains p = true → bodies.contains p = true
  cover : Cover s bodies' roots
  near : ∀ p, bodies'.contains p = true → bodies.contains p = true ∨
    ∃ r ∈ roots, ∃ l, bodies'.Descends (r :: l) p ∧ l.length < limit

namespace Advance

variable {limit : Nat} {avoid roots roots' : List Predicate}

/-- Nothing changes, where the roots need no bodies or have them. -/
theorem same (h : Cover s bodies roots) : Advance s limit avoid roots bodies bodies :=
  ⟨id, fun _ _ h => h, fun _ _ h => h, h, fun _ h => .inl h⟩

theorem trans (h : Advance s limit avoid roots bodies bodies₁)
    (h' : Advance s limit avoid roots' bodies₁ bodies') :
    Advance s limit avoid (roots ++ roots') bodies bodies' where
  stacked := h'.stacked ∘ h.stacked
  kept p b hb := h'.kept p b (h.kept p b hb)
  avoided p hp hin := h.avoided p hp (h'.avoided p hp hin)
  cover p hp := (List.mem_append.mp hp).elim (h.cover.mono h'.kept p) (h'.cover p)
  near p hp := by
    rcases h'.near p hp with hp | ⟨r, hr, l, hl, hlen⟩
    · refine (h.near p hp).imp_right ?_
      rintro ⟨r, hr, l, hl, hlen⟩
      exact ⟨r, List.mem_append_left _ hr, l, hl.mono h'.kept, hlen⟩
    · exact .inr ⟨r, List.mem_append_right _ hr, l, hl, hlen⟩

/-- The body of a predicate is put on top of those that it uses. -/
theorem push {d : Definition} (hd : s.get? p = some d) (hderived : d.isDerived = true)
    (hnew : bodies.contains p = false) (havoid : p ∉ avoid)
    (h : Advance s limit (p :: avoid) b.uses bodies bodies') :
    Advance s (limit + 1) avoid [p] bodies (SortedMap.insert bodies' p b) := by
  have hnew' : bodies'.get? p = none := by
    cases hget : bodies'.get? p with
    | none => rfl
    | some b' =>
        have hin := h.avoided p (List.mem_cons_self ..) (SortedMap.contains_iff.mpr ⟨b', hget⟩)
        rw [hnew] at hin
        cases hin
  have hle : bodies'.Le (SortedMap.insert bodies' p b) := le_insert hnew'
  refine ⟨fun hstacked => .push (h.stacked hstacked) hd hderived hnew' h.cover,
    fun q b' hb' => hle q b' (h.kept q b' hb'), fun q hq hin => ?_, ?_, fun q hq => ?_⟩
  · rcases contains_insert.mp hin with rfl | hin
    · exact absurd hq havoid
    · exact h.avoided q (List.mem_cons_of_mem _ hq) hin
  · exact fun q hq _ _ _ => contains_insert.mpr (.inl (List.mem_singleton.mp hq))
  · rcases contains_insert.mp hq with rfl | hq
    · exact .inr ⟨q, List.mem_singleton_self q, [], ⟨.singleton q, rfl⟩, Nat.succ_pos limit⟩
    · refine (h.near q hq).imp_right ?_
      rintro ⟨r, hr, l, hl, hlen⟩
      refine ⟨p, List.mem_singleton_self p, r :: l, ⟨?_, ?_⟩, Nat.succ_lt_succ hlen⟩
      · exact .cons_cons ⟨b, SortedMap.get?_insert_self .., hr⟩ (hl.mono hle).1
      · rw [List.getLast?_cons_cons]
        exact hl.2

/-- Predicates that are entered in turn. -/
theorem of_enters {c : TypingContext} {ps : List Predicate}
    (hstep : ∀ p d bodies bodies', c.schema.get? p = some d → c.derive d bodies = .ok bodies' →
      Advance c.schema limit avoid [p] bodies bodies')
    (h : c.Enters ps bodies bodies') : Advance c.schema limit avoid ps bodies bodies' := by
  induction h with
  | nil bodies => exact .same fun _ h => by cases h
  | cons hd hderive _ ih => exact (hstep _ _ _ _ hd hderive).trans ih

end Advance

end Bodies

/-! ## Typing -/

open Bodies

/-- How entering a predicate ends: it needs no body or has one, or its body is typed. -/
theorem deriveWithin_cases {s : Schema} {budget : Nat} {entered : List Predicate} {d : Definition}
    {bodies bodies' : Bodies} (h : deriveWithin s budget entered d bodies = .ok bodies') :
    (d.isDerived = false ∨ bodies.contains d.predicate = true) ∧ bodies' = bodies ∨
      ∃ (n : Nat) (derivation : Derivation) (b : Body) (bodies₁ : Bodies),
        d.derivation = some derivation ∧ bodies.contains d.predicate = false ∧
        d.predicate ∉ entered ∧ budget = n + 1 ∧
        TypingContext.body ⟨s, derivation.scope, deriveWithin s n (d.predicate :: entered)⟩
          derivation.body (some (derivation.key, d.key)) bodies = .ok (b, bodies₁) ∧
        bodies' = SortedMap.insert bodies₁ d.predicate b := by
  unfold deriveWithin at h
  split at h
  · rename_i hderivation
    cases h
    exact .inl ⟨.inl (by simp [Definition.isDerived, hderivation]), rfl⟩
  · rename_i derivation hderivation
    split at h
    · rename_i hin
      cases h
      exact .inl ⟨.inr hin, rfl⟩
    · rename_i hnew
      split at h
      · cases h
      · rename_i hentered
        cases budget with
        | zero => cases h
        | succ n =>
            obtain ⟨⟨b, bodies₁⟩, hbody, hout⟩ := Outcome.bind_ok_iff.mp h
            cases hout
            exact .inr ⟨n, derivation, b, bodies₁, hderivation, by simpa using hnew,
              by simpa using hentered, rfl, hbody, rfl⟩

/-- Entering a derived predicate. The induction is on how many more may be entered. -/
theorem deriveWithin_advance {s : Schema} (hs : s.Coherent) {budget : Nat} {entered : List Predicate}
    {p : Predicate} {d : Definition} {bodies bodies' : Bodies} (hd : s.get? p = some d)
    (h : deriveWithin s budget entered d bodies = .ok bodies') :
    Advance s budget entered [p] bodies bodies' := by
  obtain rfl := hs.named p d hd
  have hknown {entered : List Predicate} {d : Definition} {bodies : Bodies}
      (hd : s.get? d.predicate = some d)
      (h : d.isDerived = false ∨ bodies.contains d.predicate = true) (limit : Nat) :
      Advance s limit entered [d.predicate] bodies bodies := by
    refine .same (List.forall_mem_singleton.mpr fun d' hd' hderived => ?_)
    cases hd.symm.trans hd'
    exact h.resolve_left (by simp [hderived])
  induction budget generalizing entered d bodies bodies' with
  | zero =>
      obtain ⟨hneeds, rfl⟩ | ⟨_, _, _, _, -, -, -, hbudget, -⟩ := deriveWithin_cases h
      · exact hknown hd hneeds 0
      · cases hbudget
  | succ budget ih =>
      obtain ⟨hneeds, rfl⟩ | ⟨n, derivation, b, bodies₁, hderivation, hnew, hentered, hbudget, hbody, rfl⟩ :=
        deriveWithin_cases h
      · exact hknown hd hneeds (budget + 1)
      · cases hbudget
        refine .push hd (by simp [Definition.isDerived, hderivation]) hnew hentered ?_
        refine .of_enters (fun q d' bodies bodies' hd' hderive => ?_)
          (TypingContext.body_enters hs hbody)
        obtain rfl := hs.named q d' hd'
        exact ih hderive hd'

theorem Query.typed_iff {s : Schema} {q : Query} {plan : Plan} :
    q.typed s = .ok plan ↔
      TypingContext.body ⟨s, ∅, deriveWithin s maxDerivations []⟩ q none ∅ =
        .ok (plan.main, plan.derived) := by
  unfold Query.typed
  rw [Outcome.bind_ok_iff]
  constructor
  · rintro ⟨⟨main, derived⟩, hbody, hout⟩
    cases hout
    exact hbody
  · exact fun h => ⟨_, h, rfl⟩

/-- What typing a query adds to no bodies at all. -/
theorem Query.typed_advance {s : Schema} (hs : s.Coherent) {q : Query} {plan : Plan}
    (h : q.typed s = .ok plan) : Advance s maxDerivations [] plan.main.uses ∅ plan.derived :=
  .of_enters (fun _ _ _ _ hd hderive => deriveWithin_advance hs hd hderive)
    (TypingContext.body_enters hs (Query.typed_iff.mp h))

theorem Query.typed_stacked {s : Schema} (hs : s.Coherent) {q : Query} {plan : Plan}
    (h : q.typed s = .ok plan) : Stacked s plan.derived :=
  (q.typed_advance hs h).stacked .empty

/-! ## References in a circle -/

namespace Schema

/-- The key of the facts of one predicate is a reference to a fact of another. -/
def Forwards (s : Schema) (p q : Predicate) : Prop := ∃ d, s.get? p = some d ∧ d.key = .predicate q

/-- From the key of a predicate, references lead back to the predicate. -/
def Circular (s : Schema) (p : Predicate) : Prop := Relation.TransGen s.Forwards p p

/-- Where more predicates forward to one another than there are, some come again. -/
theorem exists_circular {s : Schema} {l : List Predicate} (hchain : l.IsChain s.Forwards)
    (hdefined : ∀ p ∈ l, s.Defines p) (hlen : s.predicates.size < l.length) : ∃ p, s.Circular p := by
  by_contra hnone
  have hpairs : l.Pairwise (Relation.TransGen s.Forwards) :=
    (hchain.imp fun _ _ h => Relation.TransGen.single h).pairwise
  have hnodup : l.Nodup := by
    refine hpairs.imp ?_
    rintro p _ hcircle rfl
    exact hnone ⟨p, hcircle⟩
  have hsubset : l ⊆ s.predicates.keys := fun p hp => SortedMap.mem_keys_iff.mpr (hdefined p hp)
  have hle := (List.subperm_of_subset hnodup hsubset).length_le
  rw [show s.predicates.keys.length = s.predicates.size from List.length_map ..] at hle
  omega

end Schema

namespace TypingContext

variable {c : TypingContext} {t : Typing}

/-- Entering predicates gives an answer, unless keys refer to one another in a circle. -/
def Ends (c : TypingContext) : Prop :=
  ∀ d bodies, c.schema.get? d.predicate = some d → c.derive d bodies = .error .endless →
    ∃ p, c.schema.Circular p

theorem Ends.enter (hc : c.Ends) {d : Definition} (hd : c.schema.get? d.predicate = some d)
    (h : c.enter d t = .error .endless) : ∃ p, c.schema.Circular p := by
  unfold TypingContext.enter at h
  split at h
  · cases h
  · rename_i hderive
    cases h
    exact hc d t.bodies hd hderive

/-- Where following references does not end, predicates forward to one another as often as they
were followed. -/
theorem follow_endless (hs : c.schema.Coherent) (hc : c.Ends) {fuel : Nat} {p : Predicate}
    (h : c.follow fuel (.predicate p) t = .error .endless) :
    (∃ q, c.schema.Circular q) ∨
      ∃ l, (p :: l).IsChain c.schema.Forwards ∧ (∀ q ∈ p :: l, c.schema.Defines q) ∧ l.length = fuel := by
  induction fuel generalizing p t with
  | zero =>
      rw [follow] at h
      cases hd : c.schema.get? p with
      | none =>
          simp only [hd] at h
          cases h
      | some d =>
          simp only [hd] at h
          rcases Outcome.stateT_bind_error_iff.mp h with henter | -
          · exact .inl (hc.enter (by rwa [hs.named p d hd]) henter)
          · exact .inr ⟨[], .singleton p, List.forall_mem_singleton.mpr ⟨d, hd⟩, rfl⟩
  | succ fuel ih =>
      rw [follow] at h
      cases hd : c.schema.get? p with
      | none =>
          simp only [hd] at h
          cases h
      | some d =>
          simp only [hd] at h
          rcases Outcome.stateT_bind_error_iff.mp h with henter | ⟨u, t₁, -, h⟩
          · exact .inl (hc.enter (by rwa [hs.named p d hd]) henter)
          · rcases Outcome.stateT_bind_error_iff.mp h with hfollow | ⟨r, t₂, -, hout⟩
            · by_cases hkey : ∃ q, d.key = .predicate q
              · obtain ⟨q, hkey⟩ := hkey
                rw [hkey] at hfollow
                refine (ih hfollow).imp_right ?_
                rintro ⟨l, hchain, hdefined, hlen⟩
                exact ⟨q :: l, .cons_cons ⟨d, hd, hkey⟩ hchain,
                  List.forall_mem_cons.mpr ⟨⟨d, hd⟩, hdefined⟩, congrArg (· + 1) hlen⟩
              · rw [follow_other (not_exists.mp hkey)] at hfollow
                cases hfollow
            · cases hout

/-- Typing that finds no end has met a circle. -/
theorem Ends.related (hs : c.schema.Coherent) (hc : c.Ends) :
    Related (fun x _ => ∀ t, x t = .error .endless → ∃ p, c.schema.Circular p) c c.derive where
  plain hx t h := (hx.ends t h).elim
  bind hx hk t h := by
    rcases Outcome.stateT_bind_error_iff.mp h with h | ⟨a, t₁, -, h⟩
    · exact hx t h
    · exact hk a t₁ h
  get _ _ hk t h := hk t t h
  enter d hd t h := hc.enter hd h
  follow ty t h := by
    by_cases hpred : ∃ p, ty = .predicate p
    · obtain ⟨p, rfl⟩ := hpred
      rcases follow_endless hs hc h with hcircle | ⟨l, hchain, hdefined, hlen⟩
      · exact hcircle
      · exact Schema.exists_circular hchain hdefined (by simp [hlen])
    · rw [follow_other (not_exists.mp hpred)] at h
      cases h

theorem Ends.body (hs : c.schema.Coherent) (hc : c.Ends) {q : Query} {head : Option (Pattern × Ty)}
    {bodies : Bodies} (h : c.body q head bodies = .error .endless) : ∃ p, c.schema.Circular p := by
  have hlift := hc.related hs
  unfold TypingContext.body at h
  dsimp only at h
  rcases Outcome.bind_error_iff.mp h with h | ⟨_, -, hout⟩
  · rcases Outcome.stateT_bind_error_iff.mp h with h | ⟨r, t, -, h⟩
    · exact hlift.stages hs head.isSome _ q.statements _ h
    · cases head with
      | none => cases h
      | some head => exact (((plain_expr head.1 (some head.2)).bind fun _ => .pure _).ends t h).elim
  · cases hout

end TypingContext

theorem deriveWithin_ends {s : Schema} (hs : s.Coherent) (names : SortedMap String Predicate)
    (budget : Nat) (entered : List Predicate) :
    TypingContext.Ends ⟨s, names, deriveWithin s budget entered⟩ := by
  induction budget generalizing names entered with
  | zero =>
      intro d bodies hd h
      unfold deriveWithin at h
      split at h
      · cases h
      · split at h
        · cases h
        · split at h <;> cases h
  | succ budget ih =>
      intro d bodies hd h
      unfold deriveWithin at h
      split at h
      · cases h
      · split at h
        · cases h
        · split at h
          · cases h
          · rcases Outcome.bind_error_iff.mp h with h | ⟨_, -, hout⟩
            · exact TypingContext.Ends.body (c := ⟨s, _, deriveWithin s budget _⟩) hs (ih _ _) h
            · cases hout

/-- Typing a query gives an answer, unless keys of the schema refer to one another in a circle. -/
theorem Query.typed_ends {s : Schema} (hs : s.Coherent) {q : Query} (h : q.typed s = .error .endless) :
    ∃ p, s.Circular p := by
  rcases Outcome.bind_error_iff.mp h with h | ⟨_, -, hout⟩
  · exact (deriveWithin_ends hs ∅ maxDerivations []).body hs h
  · cases hout

end Factbase
