import Factbase.Proofs.Query.Programs

/-!
# Stores that have grown

What a body yields, where no facts are derived, is the set of the values
that its stages lead to one after another (`Plan.run_reaches`), in whatever
order the facts are drawn. In stored mode facts are read as they are. So
once a store has grown, all that was drawn, matched and taken before can be
drawn, matched and taken again (`Stage.Reaches.grows`), and more besides.

Along the way values refer only to facts that the store had from the
start, since so do the facts themselves (`FactStore.Covers`).
-/

namespace Factbase

variable {σ : Type} [FactStore σ]

/-! ## Stores that have grown -/

namespace FactStore

/-- A value refers only to facts that a store has. -/
def Covers (s : σ) (v : Value) : Prop := ∀ id ∈ v.references, (lookup s id).isSome

/-- All facts of a store, which refer only to each other, are in another one. -/
structure Grown (s s' : σ) : Prop where
  lookup : ∀ id f, FactStore.lookup s id = some f → FactStore.lookup s' id = some f
  ids : ids s ⊆ ids s'
  facts : ∀ id f, FactStore.lookup s id = some f → f.id = id ∧ Covers s f.key ∧ Covers s f.value

variable {s s' : σ}

theorem Grown.lookup_eq (h : Grown s s') {id : FactId} (hid : (FactStore.lookup s id).isSome) :
    FactStore.lookup s' id = FactStore.lookup s id := by
  obtain ⟨f, hf⟩ := Option.isSome_iff_exists.mp hid
  rw [hf, h.lookup id f hf]

theorem Grown.lookup_self (h : Grown s s') {id : FactId} {f : Fact}
    (hf : FactStore.lookup s id = some f) : FactStore.lookup s f.id = some f := by
  rw [(h.facts id f hf).1, hf]

theorem covers_of_references {v : Value} (h : v.references = []) : Covers s v := by
  intro id hid
  rw [h] at hid
  cases hid

theorem covers_fact_iff {id : FactId} : Covers s (.fact id) ↔ (lookup s id).isSome := by
  simp [Covers, Value.references]

theorem covers_alt_iff {index : UInt32} {v : Value} : Covers s (.alt index v) ↔ Covers s v := by
  simp [Covers, Value.references]

theorem forall_covers_iff {vs : List Value} :
    (∀ id ∈ Value.referencesAll vs, (lookup s id).isSome) ↔ ∀ v ∈ vs, Covers s v := by
  induction vs with
  | nil => simp [Value.referencesAll]
  | cons v vs ih =>
      rw [Value.referencesAll, List.forall_mem_append, ih, List.forall_mem_cons]
      rfl

theorem covers_array_iff {vs : List Value} : Covers s (.array vs) ↔ ∀ v ∈ vs, Covers s v := by
  rw [Covers, Value.references, forall_covers_iff]

theorem covers_record_iff {vs : List Value} : Covers s (.record vs) ↔ ∀ v ∈ vs, Covers s v := by
  rw [Covers, Value.references, forall_covers_iff]

end FactStore

open FactStore (Covers Grown)

/-- After further operations a store has grown. -/
theorem StoreSession.grown_run [LawfulFactStore σ] (met : Content → Prop) (hfree : Collisionless met)
    (hkeeps : ∀ c, met c → LawfulFactStore.Keeps σ c) (ops more : List StoreOp)
    (hmet : ∀ op ∈ ops ++ more, ∀ c ∈ op.content?, met c)
    (hroom : FactStore.size ((new : StoreSession σ).run (ops ++ more)).store < 2 ^ 64 - 1024) :
    FactStore.size ((new : StoreSession σ).run ops).store < 2 ^ 64 - 1024 ∧
      Grown ((new : StoreSession σ).run ops).store ((new : StoreSession σ).run (ops ++ more)).store := by
  have happ : (new : StoreSession σ).run (ops ++ more) = (new.run ops).run more := List.foldl_append ..
  rw [happ] at hroom ⊢
  have hroom' := Nat.lt_of_le_of_lt (size_le_run (new.run ops) more) hroom
  obtain ⟨log, hgood⟩ := good_run Good.new hfree hkeeps ops
    (fun op hop => hmet op (List.mem_append_left _ hop)) hroom'
  rw [List.nil_append] at hgood
  obtain ⟨added, hgood'⟩ := good_run hgood hfree hkeeps more
    (fun op hop => hmet op (List.mem_append_right _ hop)) hroom
  have hlen' : (log ++ added).length < 2 ^ 64 - 1024 := by
    have := LawfulFactStore.size_eq hgood'.holds
    omega
  have hlen : log.length < 2 ^ 64 - 1024 := by
    rw [List.length_append] at hlen'
    omega
  have hlookup {id : FactId} {f : Fact} :
      FactStore.lookup (new.run ops : StoreSession σ).store id = some f ↔ f ∈ log ∧ f.id = id :=
    lookup_eq_some_iff hgood.holds hlen
  have hreference {f : Fact} (hf : f ∈ log) {id : FactId} (hid : id ∈ f.references) :
      (FactStore.lookup (new.run ops : StoreSession σ).store id).isSome := by
    obtain ⟨g, hg, hgid, -⟩ := hgood.sound.ordered.target hf (hgood.sound.ordered.references f hf id hid)
    exact Option.isSome_iff_exists.mpr ⟨g, hlookup.mpr ⟨hg, hgid⟩⟩
  refine ⟨hroom', fun id f hf => ?_, fun id hid => ?_, fun id f hf => ?_⟩
  · obtain ⟨hmem, hid⟩ := hlookup.mp hf
    exact (lookup_eq_some_iff hgood'.holds hlen').mpr ⟨List.mem_append_left _ hmem, hid⟩
  · rw [ids_eq hgood.holds hlen] at hid
    rw [ids_eq hgood'.holds hlen', List.length_append]
    obtain ⟨n, hn, rfl⟩ := List.mem_map.mp hid
    have hlt := List.mem_range.mp hn
    exact List.mem_map_of_mem (List.mem_range.mpr (by omega))
  · obtain ⟨hmem, hid⟩ := hlookup.mp hf
    exact ⟨hid, fun id hid => hreference hmem (List.mem_append_left _ hid),
      fun id hid => hreference hmem (List.mem_append_right _ hid)⟩

theorem FactStore.Grown.committed_subset {s s' : σ} (h : Grown s s') :
    FactStore.committed s ⊆ FactStore.committed s' := by
  intro f hf
  obtain ⟨id, hid, hlookup⟩ := List.mem_filterMap.mp hf
  exact List.mem_filterMap.mpr ⟨id, h.ids hid, h.lookup id f hlookup⟩

/-! ## Reading in stored mode -/

namespace Reading

variable {r r' : Reading σ}

omit [FactStore σ] in
theorem conversion_self (hmode : r.mode = .stored) (p : Predicate) :
    r.conversion p p = .ok ⟨.identity, .identity⟩ := if_pos ⟨hmode, rfl⟩

omit [FactStore σ] in
theorem convert_stored (hmode : r.mode = .stored) (f : Fact) : r.convert f f.predicate = .ok f :=
  convert_ok_iff.mpr ⟨_, f.key, f.value, conversion_self hmode _, Conversion.apply_identity _,
    Conversion.apply_identity _, rfl⟩

/-- In stored mode a fact is found just as a fact of its own predicate. -/
theorem read_stored (hmode : r.mode = .stored) (id : FactId) (p : Predicate) :
    r.read ∅ id p = .ok ((FactStore.lookup r.store id).filter (·.predicate = p)) := by
  have hfresh : (∅ : Overlay).get? id = none := rfl
  rw [read, hfresh]
  cases FactStore.lookup r.store id with
  | none => rfl
  | some f =>
      by_cases hp : f.predicate = p
      · subst hp
        simp [readable, hmode, convert_stored hmode, Option.filter_some]
      · simp [readable, hmode, hp, pure, Except.pure, Option.filter_some]

theorem readAny_stored (hmode : r.mode = .stored) (id : FactId) :
    r.readAny ∅ id = .ok (FactStore.lookup r.store id) := by
  have hfresh : (∅ : Overlay).get? id = none := rfl
  rw [readAny, hfresh]
  cases FactStore.lookup r.store id with
  | none => rfl
  | some f =>
      have hown : r.ownTarget f.predicate = f.predicate := by rw [ownTarget, hmode]
      show some <$> r.readStored f = _
      rw [readStored, hown, convert_stored hmode]
      rfl

theorem prepare_stored (hmode : r.mode = .stored) (p : Predicate) : r.prepare p = .ok () := by
  rw [prepare, sources, hmode]
  show (discard (r.conversion p p) >>= fun _ => List.forM [] _) = _
  rw [conversion_self hmode]
  rfl

/-- Two readings in stored mode, of a store and of one that it has grown to. -/
structure Grows (r r' : Reading σ) : Prop where
  mode : r.mode = .stored
  mode' : r'.mode = .stored
  store : Grown r.store r'.store

end Reading

/-! ## Attempts -/

namespace Attempt

variable {α β : Type} {P : α → Prop} {Q : β → Prop} {s s' : Attempt α}

/-- What an attempt finds another one finds too, and it satisfies `P`. -/
def Carries (P : α → Prop) (s s' : Attempt α) : Prop := ∀ a, s = pure a → s' = pure a ∧ P a

namespace Carries

theorem done {a : α} (h : P a) : Carries P (pure a) (pure a) := by
  intro b hb
  cases hb
  exact ⟨rfl, h⟩

theorem never : Carries P failure s' := fun _ h => nomatch h

theorem andThen {f f' : α → Attempt β} (hs : Carries P s s') (hf : ∀ a, P a → Carries Q (f a) (f' a)) :
    Carries Q (s >>= f) (s' >>= f') := by
  intro b hb
  cases hrun : s.run with
  | error e =>
      have hb := congrArg OptionT.run hb
      rw [OptionT.run_bind, hrun] at hb
      cases hb
  | ok found =>
      have hb' := congrArg OptionT.run hb
      rw [OptionT.run_bind, hrun] at hb'
      cases found with
      | none => cases hb'
      | some a =>
          obtain ⟨rfl, ha⟩ := hs a hrun
          rw [pure_bind]
          exact hf a ha b hb'

theorem guarded {c : Prop} [Decidable c] (hs : c → Carries P s s') :
    Carries P (do guard c; s) (do guard c; s') := by
  by_cases hc : c
  · rw [guard_pos hc, pure_bind, pure_bind]
    exact hs hc
  · rw [guard_neg hc]
    exact never

theorem imp {P' : α → Prop} (hs : Carries P s s') (himp : ∀ a, P a → P' a) : Carries P' s s' :=
  fun a ha => ⟨(hs a ha).1, himp a (hs a ha).2⟩

end Carries

end Attempt

open Attempt (Carries)

/-! ## Matches and expressions -/

variable {s : σ} {r r' : Reading σ} {env : Env}

/-- The values of variables refer only to facts that a store has. -/
def Env.Covered (s : σ) (env : Env) : Prop := ∀ v x, env v = some x → Covers s x

theorem Env.Covered.empty : Env.Covered s .empty := fun _ _ h => nomatch h

theorem Env.Covered.bind (h : env.Covered s) {v : Nat} {x : Value} (hx : Covers s x) :
    (env.bind v x).Covered s := by
  intro w y hy
  unfold Env.bind at hy
  split at hy
  · cases hy
    exact hx
  · exact h w y hy

/-- Facts that are found are found as well in another way, and they refer to facts of a store. -/
def Look.Carried (s : σ) (look look' : Look) : Prop :=
  ∀ id p, Carries (fun f => Covers s f.key) (look id p) (look' id p)

namespace Match

variable {look look' : Look}

mutual
/-- A match leads from values that refer to facts of a store to such values. -/
theorem against_carries (hlook : Look.Carried s look look') : (m : Match) → {x : Value} → {env : Env} →
    Covers s x → env.Covered s →
    Carries (Env.Covered s) (m.against look x env) (m.against look' x env)
  | .wild, x, _, _, henv => by
      rw [against, against]
      exact .done henv
  | .bind v, x, env, hx, henv => by
      rw [against, against]
      exact .done (henv.bind hx)
  | .same v, x, env, _, henv => by
      rw [against, against]
      exact .guarded fun _ => .done henv
  | .lit value, x, env, _, henv => by
      rw [against, against]
      exact .guarded fun _ => .done henv
  | .stringStart start, x, env, _, henv => by
      cases x with
      | string str =>
          rw [against, against]
          exact .guarded fun _ => .done henv
      | _ => exact .never
  | .array items, x, env, hx, henv => by
      cases x with
      | array xs =>
          rw [against, against]
          exact .guarded fun _ =>
            againstAll_carries hlook items (FactStore.covers_array_iff.mp hx) henv
      | _ => exact .never
  | .record arity fields, x, env, hx, henv => by
      cases x with
      | record xs =>
          rw [against, against]
          exact .guarded fun _ =>
            againstFields_carries hlook fields (FactStore.covers_record_iff.mp hx) henv
      | _ => exact .never
  | .alt index payload, x, env, hx, henv => by
      cases x with
      | alt i y =>
          rw [against, against]
          exact .guarded fun _ =>
            against_carries hlook payload (FactStore.covers_alt_iff.mp hx) henv
      | _ => exact .never
  | .deref p key, x, env, _, henv => by
      cases x with
      | fact id =>
          rw [against, against]
          exact (hlook id p).andThen fun f hf => against_carries hlook key hf henv
      | _ => exact .never

theorem againstAll_carries (hlook : Look.Carried s look look') : (ms : List Match) →
    {xs : List Value} → {env : Env} → (∀ x ∈ xs, Covers s x) → env.Covered s →
    Carries (Env.Covered s) (againstAll look ms xs env) (againstAll look' ms xs env)
  | [], xs, _, _, henv => by
      rw [againstAll, againstAll]
      · exact .done henv
      all_goals exact fun _ _ _ _ h => nomatch h
  | m :: ms, [], _, _, henv => by
      rw [againstAll, againstAll]
      · exact .done henv
      all_goals exact fun _ _ _ _ _ h => nomatch h
  | m :: ms, x :: xs, _, hxs, henv => by
      obtain ⟨hx, hxs⟩ := List.forall_mem_cons.mp hxs
      rw [againstAll, againstAll]
      exact (against_carries hlook m hx henv).andThen fun env' henv' =>
        againstAll_carries hlook ms hxs henv'

theorem againstFields_carries (hlook : Look.Carried s look look') : (ms : List (Nat × Match)) →
    {xs : List Value} → {env : Env} → (∀ x ∈ xs, Covers s x) → env.Covered s →
    Carries (Env.Covered s) (againstFields look ms xs env) (againstFields look' ms xs env)
  | [], xs, _, _, henv => by
      rw [againstFields, againstFields]
      exact .done henv
  | (i, m) :: ms, xs, env, hxs, henv => by
      rw [againstFields, againstFields]
      cases hx : xs[i]? with
      | none => exact .never
      | some x =>
          exact (against_carries hlook m (hxs x (List.mem_of_getElem? hx)) henv).andThen
            fun env' henv' => againstFields_carries hlook ms hxs henv'
end

end Match

namespace Expr

variable {c : PlanContext} {k : Nat}

mutual
/-- The value of an expression refers to what its variables refer to. -/
theorem eval_covers (henv : env.Covered s) : (e : Expr) → {ty : Ty} → {v : Value} →
    e.Typed c ty k → e.eval env = some v → Covers s v
  | .lit value, _, _, he, hv => by
      cases hv
      exact FactStore.covers_of_references he.2
  | .var x, _, v, _, hv => henv x v hv
  | .array items, _, _, he, hv => by
      obtain ⟨elem, -, hitems⟩ := he
      obtain ⟨vs, hvs, rfl⟩ := Option.map_eq_some_iff.mp hv
      exact FactStore.covers_array_iff.mpr (evalAll_cover henv items hitems.each hvs)
  | .record fields, _, _, he, hv => by
      obtain ⟨all, -, hfields⟩ := he
      obtain ⟨vs, hvs, rfl⟩ := Option.map_eq_some_iff.mp hv
      exact FactStore.covers_record_iff.mpr (evalAll_cover henv fields hfields.each hvs)
  | .alt index payload, _, _, he, hv => by
      obtain ⟨alts, a, -, -, hpayload⟩ := he
      obtain ⟨u, hu, rfl⟩ := Option.map_eq_some_iff.mp hv
      exact FactStore.covers_alt_iff.mpr (eval_covers henv payload hpayload hu)

theorem evalAll_cover (henv : env.Covered s) : (es : List Expr) → {vs : List Value} →
    (∀ e ∈ es, ∃ ty, e.Typed c ty k) → evalAll env es = some vs → ∀ v ∈ vs, Covers s v
  | [], _, _, hvs => by
      cases hvs
      exact fun v hv => nomatch hv
  | e :: es, _, hes, hvs => by
      obtain ⟨⟨ty, he⟩, hes⟩ := List.forall_mem_cons.mp hes
      obtain ⟨v, hv, hvs⟩ := Option.bind_eq_some_iff.mp hvs
      obtain ⟨rest, hrest, hvs⟩ := Option.bind_eq_some_iff.mp hvs
      cases hvs
      exact List.forall_mem_cons.mpr ⟨eval_covers henv e he hv, evalAll_cover henv es hes hrest⟩
end

end Expr

/-! ## What there is to draw -/

namespace Reading

theorem read_stored_iff (hmode : r.mode = .stored) {id : FactId} {p : Predicate} {f : Fact} :
    r.read ∅ id p = .ok (some f) ↔ FactStore.lookup r.store id = some f ∧ f.predicate = p := by
  rw [read_stored hmode, Except.ok.injEq, Option.filter_eq_some_iff, decide_eq_true_eq]

theorem readAny_stored_iff (hmode : r.mode = .stored) {id : FactId} {f : Fact} :
    r.readAny ∅ id = .ok (some f) ↔ FactStore.lookup r.store id = some f := by
  rw [readAny_stored hmode, Except.ok.injEq]

namespace Grows

variable (h : r.Grows r')

include h

/-- A fact that is read is read from the store that has grown too. -/
theorem read_carries (id : FactId) (p : Predicate) :
    Carries (fun f => FactStore.lookup r.store f.id = some f) (r.read ∅ id p) (r'.read ∅ id p) := by
  intro f hf
  obtain ⟨hlookup, hp⟩ := (read_stored_iff h.mode).mp hf
  exact ⟨(read_stored_iff h.mode').mpr ⟨h.store.lookup id f hlookup, hp⟩, h.store.lookup_self hlookup⟩

theorem readAny_carries (id : FactId) :
    Carries (fun f => FactStore.lookup r.store f.id = some f) (r.readAny ∅ id) (r'.readAny ∅ id) := by
  intro f hf
  have hlookup := (readAny_stored_iff h.mode).mp hf
  exact ⟨(readAny_stored_iff h.mode').mpr (h.store.lookup id f hlookup), h.store.lookup_self hlookup⟩

theorem look : Look.Carried r.store (r.read ∅) (r'.read ∅) := fun id p =>
  (h.read_carries id p).imp fun f hf => (h.store.facts f.id f hf).2.1

theorem siblings_subset {f : Fact} : r.siblings f ⊆ r'.siblings f := by
  intro id hid
  obtain ⟨hmem, hid⟩ := List.mem_filter.mp hid
  obtain ⟨hne, g, hg, hp, hk⟩ := of_decide_eq_true hid
  exact List.mem_filter.mpr ⟨h.store.ids hmem,
    decide_eq_true ⟨hne, g, h.store.lookup id g hg, hp, hk⟩⟩

end Grows

end Reading

theorem Prim.references_apply {f : Prim} {v u : Value} (h : f.apply v = .ok u) : u.references = [] := by
  unfold apply at h
  split at h <;> cases h <;> rfl

/-- What is drawn is a fact, or a value that refers to facts of a store. -/
def Candidate.Covered (s : σ) : Candidate → Prop
  | .fact _ => True
  | .value v => Covers s v

namespace Supply

variable {c : PlanContext} {o : Outcome} {k k' : Nat} {supply : Supply} {cs : List Candidate}

/-- A supply that does not draw from a derived predicate. -/
def IsStored : Supply → Prop
  | .facts _ derived _ _ => derived = false
  | .factId _ | .prim _ _ | .expr _ => True

instance : DecidablePred IsStored
  | .facts _ derived _ _ => inferInstanceAs (Decidable (derived = false))
  | .factId _ | .prim _ _ | .expr _ => .isTrue trivial

theorem candidates_facts (hmode : r.mode = .stored) (p : Predicate) (key value : Match) (env : Env) :
    (Supply.facts p false key value).candidates r ∅ [] env =
      .ok ((FactStore.ids r.store).map .fact) := by
  unfold candidates
  dsimp only
  rw [Reading.prepare_stored hmode]
  split <;> rfl

theorem candidates_factId (id : UInt64) (env : Env) :
    (Supply.factId id).candidates r ∅ [] env =
      match FactStore.lookup r.store ⟨id⟩ with
      | some f => .ok ((⟨id⟩ :: r.siblings f).map .fact)
      | none => .error (.notFound (.fact ⟨id⟩)) := rfl

/-- What is drawn from a store is drawn from it as well once it has grown. -/
theorem candidates_carry (h : r.Grows r') (hs : supply.Typed c o k k') (hstored : supply.IsStored)
    (henv : env.Covered r.store) (hcs : supply.candidates r ∅ [] env = .ok cs) :
    ∃ cs', supply.candidates r' ∅ [] env = .ok cs' ∧ cs ⊆ cs' ∧ ∀ x ∈ cs, x.Covered r.store := by
  have hfacts (ids : List FactId) : ∀ x ∈ ids.map Candidate.fact, x.Covered r.store :=
    List.forall_mem_map.mpr fun _ _ => trivial
  cases supply with
  | facts p derived key value =>
      obtain rfl : derived = false := hstored
      rw [candidates_facts h.mode] at hcs
      obtain rfl := Except.ok.inj hcs
      exact ⟨_, candidates_facts h.mode' p key value env, List.map_subset _ h.store.ids, hfacts _⟩
  | factId id =>
      rw [candidates_factId] at hcs
      cases hlookup : FactStore.lookup r.store ⟨id⟩ with
      | none =>
          rw [hlookup] at hcs
          cases hcs
      | some f =>
          rw [hlookup] at hcs
          cases hcs
          refine ⟨_, by rw [candidates_factId, h.store.lookup _ f hlookup], ?_, hfacts _⟩
          exact List.map_subset _ (List.cons_subset_cons _ h.siblings_subset)
  | prim function arg =>
      refine ⟨cs, hcs, List.Subset.refl _, fun x hx => ?_⟩
      unfold candidates at hcs
      dsimp only at hcs
      split at hcs
      · obtain ⟨u, hu, hcs⟩ := Outcome.bind_ok_iff.mp hcs
        cases hcs
        obtain rfl := List.mem_singleton.mp hx
        exact FactStore.covers_of_references (Prim.references_apply (Outcome.mapError_ok_iff.mp hu))
      · cases hcs
        cases hx
  | expr e =>
      obtain ⟨-, ty, -, he⟩ := hs
      refine ⟨cs, hcs, List.Subset.refl _, fun x hx => ?_⟩
      cases hcs
      obtain ⟨v, hv, rfl⟩ := List.mem_map.mp hx
      exact Expr.eval_covers henv e he (Option.mem_toList.mp hv)

theorem fetch_carries (h : r.Grows r') (supply : Supply) (id : FactId) :
    Carries (fun f => FactStore.lookup r.store f.id = some f) (supply.fetch r ∅ id)
      (supply.fetch r' ∅ id) := by
  cases supply with
  | facts p derived key value =>
      cases derived with
      | true => exact .never
      | false => exact h.read_carries id p
  | factId _ | prim _ _ | expr _ => exact h.readAny_carries id

theorem onFact_carries (h : r.Grows r') (supply : Supply) {f : Fact}
    (hf : FactStore.lookup r.store f.id = some f) (henv : env.Covered r.store) :
    Carries (Env.Covered r.store) (supply.onFact (r.read ∅) f env) (supply.onFact (r'.read ∅) f env) := by
  obtain ⟨-, hkey, hvalue⟩ := h.store.facts f.id f hf
  cases supply with
  | facts p derived key value =>
      have honKey : Carries (Env.Covered r.store) (key.onKey (r.read ∅) derived f env)
          (key.onKey (r'.read ∅) derived f env) := by
        unfold Match.onKey
        split
        · exact .guarded fun _ => .done henv
        · exact key.against_carries h.look hkey henv
      exact honKey.andThen fun env' henv' => value.against_carries h.look hvalue henv'
  | factId _ | prim _ _ | expr _ => exact .done henv

end Supply

/-! ## Stages -/

namespace Stage

variable {c : PlanContext} {o : Outcome} {k k' : Nat} {stage : Stage} {res : Value × Env}

theorem attempt_carries (h : r.Grows r') (stage : Stage) (henv : env.Covered r.store) {x : Candidate}
    (hx : x.Covered r.store) :
    Carries (fun res => Covers r.store res.1 ∧ res.2.Covered r.store) (stage.attempt r ∅ env x)
      (stage.attempt r' ∅ env x) := by
  cases x with
  | value v =>
      simp only [attempt, pure_bind]
      exact (stage.bind.against_carries h.look hx henv).andThen fun env' henv' => .done ⟨hx, henv'⟩
  | fact id =>
      simp only [attempt, pure_bind]
      refine (stage.supply.fetch_carries h id).andThen fun f hf => ?_
      have hv : Covers r.store (.fact f.id) :=
        FactStore.covers_fact_iff.mpr (Option.isSome_iff_exists.mpr ⟨f, hf⟩)
      exact (stage.supply.onFact_carries h hf henv).andThen fun env' henv' =>
        (stage.bind.against_carries h.look hv henv').andThen fun env'' henv'' => .done ⟨hv, henv''⟩

/-- What a stage may take in an environment, while no facts are derived. -/
def Takes (r : Reading σ) (stage : Stage) (env : Env) (res : Value × Env) : Prop :=
  ∃ cs, stage.supply.candidates r ∅ [] env = .ok cs ∧ ∃ x ∈ cs, stage.attempt r ∅ env x = pure res

/-- The values that stages lead to, one after another. -/
def Reaches (r : Reading σ) : List Stage → Env → Value → Prop
  | [], _, _ => False
  | [stage], env, v => ∃ env', stage.Takes r env (v, env')
  | stage :: rest, env, v => ∃ res, stage.Takes r env res ∧ Reaches r rest res.2 v

/-- What a stage may take it may take as well once the store has grown. -/
theorem Takes.grows (h : r.Grows r') (hs : stage.Typed c o k k') (hstored : stage.supply.IsStored)
    (henv : env.Covered r.store) (htakes : stage.Takes r env res) :
    stage.Takes r' env res ∧ Covers r.store res.1 ∧ res.2.Covered r.store := by
  obtain ⟨cs, hcs, x, hx, hres⟩ := htakes
  obtain ⟨j, hsupply, -⟩ := hs
  obtain ⟨cs', hcs', hsub, hall⟩ := Supply.candidates_carry h hsupply hstored henv hcs
  obtain ⟨hres', hcovered⟩ := stage.attempt_carries h henv (hall x hx) res hres
  exact ⟨⟨cs', hcs', x, hsub hx, hres'⟩, hcovered⟩

/-- What stages lead to they lead to as well once the store has grown. -/
theorem Reaches.grows (h : r.Grows r') {first : Outcome} {stages : List Stage}
    (hs : TypedAll c first stages o k k') (hstored : ∀ s ∈ stages, s.supply.IsStored)
    (henv : env.Covered r.store) {v : Value} (hv : Reaches r stages env v) :
    Reaches r' stages env v ∧ Covers r.store v := by
  -- Along the stages the environments stay covered, which carries the induction.
  induction stages generalizing first k env with
  | nil => cases hv
  | cons s rest ih =>
      obtain ⟨o', j, hs, hrest⟩ := hs
      obtain ⟨hsstored, hstored⟩ := List.forall_mem_cons.mp hstored
      cases rest with
      | nil =>
          obtain ⟨env', htakes⟩ := hv
          obtain ⟨htakes', hcovers, -⟩ := htakes.grows h hs hsstored henv
          exact ⟨⟨env', htakes'⟩, hcovers⟩
      | cons s' rest =>
          obtain ⟨res, htakes, hv⟩ := hv
          obtain ⟨htakes', -, henv'⟩ := htakes.grows h hs hsstored henv
          obtain ⟨hv', hcovers⟩ := ih hrest hstored henv' hv
          exact ⟨⟨res, htakes', hv'⟩, hcovers⟩

end Stage

/-! ## Bodies -/

/-- A course that derives nothing, and gives what satisfies `P` unless it fails. -/
def Course.Quiet {α : Type} (P : α → Prop) (m : Course α) (w : World) : Prop :=
  match m.run w with
  | .ok (a, w') => w' = w ∧ P a
  | .error (.failed _) => True
  | .error .outOfIds => False

namespace Course.Quiet

variable {α β : Type} {P : α → Prop} {Q : β → Prop} {w : World}

theorem done {a : α} (h : P a) : Quiet P (pure a) w := ⟨rfl, h⟩

theorem andThen {m : Course α} {f : α → Course β} (hm : Quiet P m w) (hf : ∀ a, P a → Quiet Q (f a) w) :
    Quiet Q (m >>= f) w := by
  unfold Quiet at *
  rw [StateT.run_bind]
  cases hrun : m.run w with
  | error x =>
      rw [hrun] at hm
      cases x with
      | failed e => trivial
      | outOfIds => exact hm
  | ok res =>
      obtain ⟨a, w'⟩ := res
      rw [hrun] at hm
      obtain ⟨rfl, ha⟩ := hm
      exact hf a ha

theorem imp {P' : α → Prop} {m : Course α} (hm : Quiet P m w) (himp : ∀ a, P a → P' a) :
    Quiet P' m w := by
  have h : Quiet P' (m >>= pure) w := hm.andThen fun a ha => done (himp a ha)
  rwa [bind_pure] at h

end Course.Quiet

namespace Stage

variable {derive : Predicate → Course (List FactId)} {w : World} {envs : List Env}

theorem mem_kept_iff {stage : Stage} {kept : List (Value × Env)}
    (h : stage.kept r ∅ [] env = .ok kept) {res : Value × Env} : res ∈ kept ↔ stage.Takes r env res := by
  obtain ⟨cs, hcs, hkept⟩ := Outcome.bind_ok_iff.mp h
  rw [filterMapM_eq_collect] at hkept
  rw [mem_collect hkept]
  constructor
  · rintro ⟨x, hx, found, hfound, hres⟩
    obtain ⟨y, hy, rfl⟩ := Outcome.map_ok_iff.mp hfound
    obtain rfl := Option.mem_toList.mp hres
    exact ⟨cs, hcs, x, hx, hy⟩
  · rintro ⟨cs', hcs', x, hx, hres⟩
    obtain rfl := Except.ok.inj (hcs.symm.trans hcs')
    exact ⟨x, hx, [res], Outcome.map_ok_iff.mpr ⟨some res, hres, rfl⟩, List.mem_singleton_self _⟩

/-- A stage that draws from no derived predicate keeps what it may take. -/
theorem run_quiet {stage : Stage} (hstored : stage.supply.IsStored) (hw : w.overlay = ∅) :
    Course.Quiet (fun kept => ∀ res, res ∈ kept ↔ ∃ env ∈ envs, stage.Takes r env res)
      (stage.run r derive envs) w := by
  by_cases hne : envs = []
  · subst hne
    exact .done fun res => by simp
  -- The overlay stays empty, since what a stage draws from decides alone whether facts are derived.
  have hknown : stage.supply.known derive = pure [] := by
    cases hsupply : stage.supply with
    | facts p derived key value =>
        rw [hsupply] at hstored
        obtain rfl : derived = false := hstored
        rfl
    | factId _ | prim _ _ | expr _ => rfl
  rw [run_eq hne, hknown, pure_bind]
  unfold Course.Quiet
  rw [run_settled, hw]
  cases hkept : collect (stage.kept r ∅ []) envs with
  | error e => trivial
  | ok kept =>
      refine ⟨rfl, fun res => ?_⟩
      rw [mem_collect hkept]
      constructor
      · rintro ⟨env, henv, found, hfound, hres⟩
        exact ⟨env, henv, (mem_kept_iff hfound).mp hres⟩
      · rintro ⟨env, henv, htakes⟩
        obtain ⟨found, hfound⟩ := ok_of_collect hkept henv
        exact ⟨env, henv, found, hfound, (mem_kept_iff hfound).mpr htakes⟩

/-- Stages that draw from no derived predicate give the values that they lead to. -/
theorem runAll_quiet {stages : List Stage} (hstored : ∀ s ∈ stages, s.supply.IsStored)
    (hw : w.overlay = ∅) :
    Course.Quiet (fun values => ∀ v, v ∈ values ↔ ∃ env ∈ envs, Reaches r stages env v)
      (runAll r derive stages envs) w := by
  induction stages generalizing envs with
  | nil => exact .done fun v => by simp [Reaches]
  | cons s rest ih =>
      obtain ⟨hs, hrest⟩ := List.forall_mem_cons.mp hstored
      cases rest with
      | nil =>
          refine (run_quiet hs hw).andThen fun kept hkept => .done fun v => ?_
          simp only [List.mem_map, hkept, Reaches]
          constructor
          · rintro ⟨res, ⟨env, henv, htakes⟩, rfl⟩
            exact ⟨env, henv, res.2, htakes⟩
          · rintro ⟨env, henv, env', htakes⟩
            exact ⟨(v, env'), ⟨env, henv, htakes⟩, rfl⟩
      | cons s' rest =>
          refine (run_quiet hs hw).andThen fun kept hkept => ?_
          have hvalues (values : List Value) :
              (∀ v, v ∈ values ↔ ∃ env ∈ kept.map (·.2), Reaches r (s' :: rest) env v) →
                ∀ v, v ∈ values ↔ ∃ env ∈ envs, Reaches r (s :: s' :: rest) env v := by
            intro h v
            simp only [h, List.mem_map, hkept, Reaches]
            constructor
            · rintro ⟨-, ⟨res, ⟨env, henv, htakes⟩, rfl⟩, hv⟩
              exact ⟨env, henv, res, htakes, hv⟩
            · rintro ⟨env, henv, res, htakes, hv⟩
              exact ⟨res.2, ⟨res, ⟨env, henv, htakes⟩, rfl⟩, hv⟩
          exact (ih hrest).imp hvalues

end Stage

/-- A program without derived predicates yields the values that the stages of its plan lead to, and
derives nothing. -/
theorem Plan.run_reaches [LawfulFactStore σ] {met : Content → Prop} {log : List Fact}
    (h : r.Over met log) (hfree : Collisionless met) {p : Plan} (hp : p.Typed r.target)
    (hstored : ∀ s ∈ p.main.stages, s.supply.IsStored) {profile : Option Profile}
    {out : Sink × Evaluation}
    (hrun : (p.compile.run r none).run ⟨∅, ∅, FactStore.nextId r.store, 0, profile⟩ = .ok out) :
    out.2.overlay = ∅ ∧ ∀ v, v ∈ out.1.values ↔ Stage.Reaches r p.main.stages .empty v := by
  have hnamed : p.Names fun _ => True := ⟨fun _ _ _ _ => trivial, fun _ _ _ _ _ _ _ => trivial⟩
  let start : Evaluation := ⟨∅, ∅, FactStore.nextId r.store, 0, profile⟩
  have htracks := p.tracks_compile h hfree hp hnamed none (e := start) World.start_good
  have hquiet : Course.Quiet (fun values => ∀ v, v ∈ values ↔ Stage.Reaches r p.main.stages .empty v)
      (p.values r) start.world :=
    (Stage.runAll_quiet hstored rfl).andThen fun values hvalues => .done fun v => by
      simp [eraseDups_eq_gather, mem_gather, hvalues]
  unfold Tracks at htracks
  unfold Course.Quiet at hquiet
  cases hcourse : (p.values r).run start.world with
  | error x =>
      rw [hcourse] at htracks hquiet
      cases x with
      | outOfIds => exact hquiet.elim
      | failed x =>
          rcases htracks with hfail | ⟨sink, e', -, -, hcut⟩
          · cases hrun.symm.trans hfail
          · cases hcut.1.full hcut.2
  | ok res =>
      rw [hcourse] at htracks hquiet
      obtain ⟨sink, e', hdone, -, ⟨hworld, -, hvalues⟩ | hcut⟩ := htracks
      · obtain rfl := Except.ok.inj (hrun.symm.trans hdone)
        refine ⟨?_, fun v => ?_⟩
        · exact congrArg World.overlay (hworld.trans hquiet.1)
        · rw [hvalues]
          exact hquiet.2 v
      · cases hcut.1.full hcut.2

end Factbase
