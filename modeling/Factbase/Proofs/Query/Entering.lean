import Factbase.Proofs.Query.Typing
import Factbase.Query.Compile

/-!
# What typing enters

Typing a body enters the derived predicates that the body will use, and
this is all it does to the bodies that are known. Two things are made of
that.

Which predicates are entered, and in which order, can be read off the
result: they are the predicates that its stages draw from or follow
references to (`Enters`, `body_enters`).

And apart from entering them, typing neither looks at the bodies nor
changes them. Steps that keep to that are `Check.Plain`; a relation
between steps of typing that holds of these, of entering a predicate and
of following references, and that is kept when steps are put together,
holds of typing as a whole (`Check.Lifting`, `Lifting.stages`).
-/

namespace Factbase

/-! ## What bodies use -/

/-- The predicates whose facts a supply gives, or reaches by references. -/
def Supply.uses : Supply → List Predicate
  | .facts p _ key value => p :: (key.touches ++ value.touches)
  | .factId _ | .prim _ _ | .expr _ => []

/-- The predicates that a stage uses: the one that it draws facts of, and those that
its matches follow references to. -/
def Stage.uses (s : Stage) : List Predicate := s.supply.uses ++ s.bind.touches

/-- The predicates that a body uses, in the order of its parts. -/
def Body.uses (b : Body) : List Predicate := b.stages.flatMap Stage.uses

namespace TypingContext

open Check Match

variable {c : TypingContext} {t t' : Typing}

theorem touches_through (ps : List Predicate) (m : Match) :
    (through ps m).touches = ps ++ m.touches := by
  induction ps with
  | nil => rfl
  | cons p ps ih => exact congrArg (p :: ·) ih

/-! ## Entering in turn -/

/-- Predicates are entered in turn, from the bodies known at first to those known at last. -/
inductive Enters (c : TypingContext) : List Predicate → Bodies → Bodies → Prop
  | nil (bodies : Bodies) : Enters c [] bodies bodies
  | cons {p : Predicate} {d : Definition} {ps : List Predicate} {bodies bodies₁ bodies' : Bodies} :
    c.schema.get? p = some d → c.derive d bodies = .ok bodies₁ → Enters c ps bodies₁ bodies' →
    Enters c (p :: ps) bodies bodies'

namespace Enters

variable {ps qs : List Predicate} {bodies bodies₁ bodies' : Bodies}

theorem append (h : c.Enters ps bodies bodies₁) (h' : c.Enters qs bodies₁ bodies') :
    c.Enters (ps ++ qs) bodies bodies' := by
  induction h with
  | nil => exact h'
  | cons hd hderive _ ih => exact .cons hd hderive (ih h')

/-- What entering one predicate after another keeps. -/
theorem preserves {I : Bodies → Prop}
    (hstep : ∀ p ∈ ps, ∀ d bodies bodies', c.schema.get? p = some d →
      c.derive d bodies = .ok bodies' → I bodies → I bodies')
    (h : c.Enters ps bodies bodies') (hI : I bodies) : I bodies' := by
  induction h with
  | nil => exact hI
  | cons hd hderive _ ih =>
      obtain ⟨hfirst, hrest⟩ := List.forall_mem_cons.mp hstep
      exact ih hrest (hfirst _ _ _ hd hderive hI)

end Enters

end TypingContext

/-! ## Plain steps -/

namespace Check

variable {α β : Type}

/-- A step of typing that neither looks at the bodies nor changes them, and that ends. -/
structure Plain (x : Check α) : Prop where
  natural : ∀ t bodies, x { t with bodies } = (fun r => (r.1, { r.2 with bodies })) <$> x t
  ends : ∀ t, x t ≠ .error .endless

namespace Plain

theorem bodies {x : Check α} (h : x.Plain) {t t' : Typing} {a : α} (hx : x t = .ok (a, t')) :
    t'.bodies = t.bodies := by
  have hnatural := h.natural t t.bodies
  rw [show ({ t with bodies := t.bodies } : Typing) = t from rfl, hx] at hnatural
  exact congrArg (fun r => r.2.bodies) (Except.ok.inj hnatural)

theorem pure (a : α) : Plain (pure a : Check α) := ⟨fun _ _ => rfl, fun _ h => by cases h⟩

theorem throw {e : Error} (he : e ≠ .endless) : Plain (throw e : Check α) where
  natural _ _ := rfl
  ends _ h := he (Except.error.inj h)

theorem fail (e : TypeFault) : Plain (Check.fail e : Check α) := throw fun h => by cases h

theorem bind {x : Check α} {k : α → Check β} (hx : x.Plain) (hk : ∀ a, (k a).Plain) :
    Plain (x >>= k) where
  natural t bodies := by
    show (x { t with bodies } >>= fun r => k r.1 r.2) = _ <$> (x t >>= fun r => k r.1 r.2)
    rw [hx.natural]
    cases x t with
    | error e => rfl
    | ok r => exact (hk r.1).natural r.2 bodies
  ends t h := by
    replace h : (x t >>= fun r => k r.1 r.2) = .error .endless := h
    cases hrun : x t with
    | error e =>
        rw [hrun] at h
        cases h
        exact hx.ends t hrun
    | ok r =>
        rw [hrun] at h
        exact (hk r.1).ends r.2 h

theorem map {x : Check α} (f : α → β) (hx : x.Plain) : Plain (f <$> x) := by
  rw [map_eq_pure_bind]
  exact hx.bind fun a => .pure (f a)

/-- A step that looks at anything but the bodies. -/
theorem get {k : Typing → Check α} (hsame : ∀ t bodies, k { t with bodies } = k t)
    (hk : ∀ t, (k t).Plain) : Plain (get >>= k) where
  natural t bodies := by
    show k { t with bodies } { t with bodies } = _
    rw [hsame]
    exact (hk t).natural t bodies
  ends t := (hk t).ends t

theorem mapM {f : α → Check β} {l : List α} (h : ∀ a ∈ l, (f a).Plain) : Plain (l.mapM f) := by
  induction l with
  | nil => exact .pure []
  | cons a l ih =>
      obtain ⟨ha, hl⟩ := List.forall_mem_cons.mp h
      rw [List.mapM_cons]
      exact ha.bind fun b => (ih hl).bind fun bs => .pure (b :: bs)

end Plain

theorem plain_occurrence (name : String) (ty : Ty) : (occurrence name ty).Plain where
  natural t bodies := by
    unfold occurrence
    dsimp only
    split
    · split <;> rfl
    · rfl
  ends t h := by
    unfold occurrence at h
    split at h
    · split at h <;> cases h
    · cases h

theorem plain_mark (path : List String) : (mark path).Plain := ⟨fun _ _ => rfl, fun _ h => by cases h⟩

theorem plain_field (name : String) (fields : List Field) (whole : Ty) :
    (field name fields whole).Plain := by
  unfold field
  split
  · exact .pure _
  · exact .fail _

theorem plain_altIndex (i : Nat) : (altIndex i).Plain := by
  unfold altIndex
  split
  · exact .pure _
  · exact .fail _

end Check

namespace TypingContext

open Check Match

variable {c : TypingContext} {t t' : Typing}

mutual
/-- Expressions are over variables alone. -/
theorem plain_expr : (p : Pattern) → (expected : Option Ty) → (expr p expected).Plain
  | .noExpand inner, expected => by
      rw [expr]
      exact plain_expr inner expected
  | .wild, _ => by
      rw [expr]
      exact .fail _
  | .stringStart _, _ => by
      rw [expr]
      exact .fail _
  | .var name, expected => by
      rw [expr]
      refine .get (fun _ _ => rfl) fun t => ?_
      split
      · exact .throw fun h => by cases h
      · split
        · split
          · exact .pure _
          · exact .fail _
        · exact .pure _
  | .nat n, expected => by
      rw [expr.eq_def]
      dsimp only
      split
      · split
        · exact .pure _
        · exact .fail _
      · exact .pure _
      · exact .pure _
      · exact .fail _
  | .string s, expected => by
      rw [expr.eq_def]
      dsimp only
      split
      · exact .pure _
      · exact .pure _
      · exact .fail _
  | .bool b, expected => by
      rw [expr.eq_def]
      dsimp only
      split
      · exact .pure _
      · exact .pure _
      · exact .fail _
  | .array items, expected => by
      rw [expr.eq_def]
      dsimp only
      split
      · exact (plain_exprs _ items).bind fun _ => .pure _
      · exact .fail _
      · match items with
        | [] => exact .fail _
        | first :: rest =>
          exact (plain_expr first none).bind fun found => (plain_exprs found.2 rest).bind fun _ => .pure _
  | .fields given, expected => by
      rw [expr.eq_def]
      dsimp only
      split
      · rename_i fields
        split
        · exact .fail _
        · refine .bind (.mapM fun f _ => ?_) fun _ => .pure _
          refine (plain_namedExpr f.name f.ty given).bind fun found => ?_
          split
          · exact .pure _
          · split
            · exact .pure _
            · exact .fail _
      · match given with
        | [(name, sub)] =>
          refine (plain_field _ _ _).bind fun found => (plain_expr sub (some found.2)).bind fun _ => ?_
          exact (plain_altIndex found.1).bind fun _ => .pure _
        | [] => exact .fail _
        | _ :: _ :: _ => exact .fail _
      · exact .fail _
      · exact (plain_inferFields [] given).bind fun _ => .pure _
  | .tuple items, expected => by
      rw [expr.eq_def]
      dsimp only
      split
      · split
        · exact (plain_tupleExprs _ items).bind fun _ => .pure _
        · exact .fail _
      · exact .fail _
      · exact .fail _

theorem plain_exprs (elem : Ty) : (ps : List Pattern) → (exprs elem ps).Plain
  | [] => by
      rw [exprs]
      exact .pure _
  | p :: ps => by
      rw [exprs]
      exact (plain_expr p (some elem)).bind fun _ => (plain_exprs elem ps).bind fun _ => .pure _

theorem plain_namedExpr (name : String) (ty : Ty) :
    (given : List (String × Pattern)) → (namedExpr name ty given).Plain
  | [] => by
      rw [namedExpr]
      exact .pure _
  | (n, p) :: rest => by
      rw [namedExpr]
      split
      · exact (plain_expr p (some ty)).bind fun _ => .pure _
      · exact plain_namedExpr name ty rest

theorem plain_tupleExprs : (fields : List Field) → (items : List Pattern) →
    (tupleExprs fields items).Plain
  | f :: fs, p :: ps => by
      rw [tupleExprs]
      exact (plain_expr p (some f.ty)).bind fun _ => (plain_tupleExprs fs ps).bind fun _ => .pure _
  | [], _ | _ :: _, [] => by
      rw [tupleExprs]
      · exact .pure _
      · simp

theorem plain_inferFields (seen : List String) :
    (given : List (String × Pattern)) → (inferFields seen given).Plain
  | [] => by
      rw [inferFields]
      exact .pure _
  | (name, p) :: rest => by
      rw [inferFields]
      have hrest : Plain (do
          let found ← expr p none
          let fields ← inferFields (name :: seen) rest
          return (.plain name found.2, found.1) :: fields : Check (List (Field × Expr))) :=
        (plain_expr p none).bind fun _ => (plain_inferFields (name :: seen) rest).bind fun _ => .pure _
      split
      · exact (Plain.fail _).bind fun _ => hrest
      · exact hrest
end

/-! ## What is entered -/

/-- Following references enters the predicates that are followed. -/
theorem Follows.enters {ty ty' : Ty} {ps : List Predicate} (h : c.Follows ty t ps ty' t') :
    c.Enters ps t.bodies t'.bodies := by
  induction h with
  | here => exact .nil _
  | step hd henter _ ih => exact .cons hd henter ih

mutual
/-- The match of a pattern follows references to the predicates that were entered for it. -/
theorem Fits.enters {path : List String} {ty : Ty} {p : Pattern} {t t' : Typing} {m : Match} :
    c.Fits path ty p t m t' → c.Enters m.touches t.bodies t'.bodies
  | .wild | .same .. | .bind _ => .nil _
  | .noExpand h => h.enters
  | .value hfollow h => touches_through _ _ ▸ hfollow.enters.append h.enters

theorem FitsValue.enters {path : List String} {ty : Ty} {p : Pattern} {t t' : Typing} {m : Match} :
    c.FitsValue path ty p t m t' → c.Enters m.touches t.bodies t'.bodies
  | .lit _ | .stringStart => .nil _
  | .array h => h.enters
  | .record h => h.enters
  | .alt _ _ h => h.enters
  | .tuple h => h.enters

theorem FitsItems.enters {path : List String} {elem : Ty} {ps : List Pattern} {t t' : Typing}
    {ms : List Match} : c.FitsItems path elem ps t ms t' →
      c.Enters (Match.touchesAll ms) t.bodies t'.bodies
  | .nil => .nil _
  | .cons h hs => h.enters.append hs.enters

theorem FitsFields.enters {path : List String} {fields : List Field}
    {given : List (String × Pattern)} {t t' : Typing} {ms : List (Nat × Match)} :
    c.FitsFields path fields given t ms t' → c.Enters (Match.touchesFields ms) t.bodies t'.bodies
  | .nil => .nil _
  | .cons _ h hs => h.enters.append hs.enters

theorem FitsInOrder.enters {path : List String} {fields : List Field} {i : Nat} {ps : List Pattern}
    {t t' : Typing} {ms : List (Nat × Match)} :
    c.FitsInOrder path fields i ps t ms t' → c.Enters (Match.touchesFields ms) t.bodies t'.bodies
  | .nil => .nil _
  | .cons _ h hs => h.enters.append hs.enters
end

/-- A source uses what was entered for it. -/
theorem Draws.enters (hs : c.schema.Coherent) {source : Source} {s : Supply} {o : Outcome}
    (h : c.Draws source t s o t') : c.Enters s.uses t.bodies t'.bodies := by
  cases h with
  | facts hresolve henter hkey hvalue =>
      exact .cons (resolve_defines hs hresolve) henter (hkey.enters.append hvalue.enters)
  | _ => exact .nil _

theorem Meets.enters {p : Pattern} {o : Outcome} {m : Match} (h : c.Meets p o t m t') :
    c.Enters m.touches t.bodies t'.bodies := by
  cases h with
  | anyFact => exact .nil _
  | fact h => exact h.enters
  | value h => exact h.enters

theorem stages_enters (hs : c.schema.Coherent) {more : Bool} {first o : Outcome} {ss : List Statement}
    {stages : List Stage} (h : c.stages more first ss t = .ok ((stages, o), t')) :
    c.Enters (stages.flatMap Stage.uses) t.bodies t'.bodies := by
  induction ss generalizing first stages t with
  | nil =>
      obtain ⟨hpair, rfl⟩ := Outcome.stateT_pure_ok_iff.mp h
      cases hpair
      exact .nil _
  | cons s ss ih =>
      obtain ⟨supply, o₁, t₁, bind, t₂, rest, hsupply, hbind, hstages, rfl⟩ := stages_cons h
      rw [List.flatMap_cons]
      exact (((supply_draws hsupply).enters hs).append (binding_meets hbind).enters).append (ih hstages)

/-- A body has the stages of its statements; one that comes last for a head uses nothing. -/
theorem body_stages {q : Query} {head : Option (Pattern × Ty)} {bodies bodies' : Bodies} {b : Body}
    (h : c.body q head bodies = .ok (b, bodies')) :
    ∃ stages last o t,
      c.stages head.isSome (.value .unit) q.statements ⟨[], ∅, bodies⟩ = .ok ((stages, o), t) ∧
      t.bodies = bodies' ∧ b.stages = stages ++ last ∧ ∀ s ∈ last, s.uses = [] := by
  obtain ⟨stages, o, t, hstages, hbodies, ⟨-, rfl⟩ | ⟨p, ty, e, found, -, -, rfl⟩⟩ := body_cases h
  · exact ⟨stages, [], o, t, hstages, hbodies, (List.append_nil _).symm, List.forall_mem_nil _⟩
  · exact ⟨stages, _, o, t, hstages, hbodies, rfl, List.forall_mem_singleton.mpr rfl⟩

/-- Typing a body enters what the body uses, in turn, and nothing else. -/
theorem body_enters (hs : c.schema.Coherent) {q : Query} {head : Option (Pattern × Ty)}
    {bodies bodies' : Bodies} {b : Body} (h : c.body q head bodies = .ok (b, bodies')) :
    c.Enters b.uses bodies bodies' := by
  obtain ⟨stages, last, o, t, hstages, rfl, hb, hlast⟩ := body_stages h
  rw [Body.uses, hb, List.flatMap_append, List.flatMap_eq_nil_iff.mpr hlast, List.append_nil]
  exact stages_enters hs hstages

/-! ## Lifting relations to typing -/

end TypingContext

namespace Check

/-- A relation between steps of typing that holds between a plain step and itself and is kept
when steps are put together. -/
structure Lifting (P : ∀ {α : Type}, Check α → Check α → Prop) : Prop where
  plain : ∀ {α : Type} {x : Check α}, x.Plain → P x x
  bind : ∀ {α β : Type} {x x' : Check α} {k k' : α → Check β}, P x x' → (∀ a, P (k a) (k' a)) →
    P (x >>= k) (x' >>= k')
  get : ∀ {α : Type} {k k' : Typing → Check α}, (∀ t bodies, k { t with bodies } = k t) →
    (∀ t bodies, k' { t with bodies } = k' t) → (∀ t, P (k t) (k' t)) → P (get >>= k) (get >>= k')

end Check

namespace TypingContext

open Check

variable {c : TypingContext}

/-- Two contexts that differ in how they enter predicates, and a relation that holds between how
they enter them and follow references. -/
structure Related (P : ∀ {α : Type}, Check α → Check α → Prop) (c : TypingContext)
    (derive : Definition → Bodies → Except Error Bodies) : Prop extends Lifting P where
  enter : ∀ d, c.schema.get? d.predicate = some d → P (c.enter d) (enter { c with derive } d)
  follow : ∀ ty, P (c.follow c.schema.predicates.size ty)
    (follow { c with derive } c.schema.predicates.size ty)

namespace Related

variable {P : ∀ {α : Type}, Check α → Check α → Prop}
  {derive : Definition → Bodies → Except Error Bodies}

/-- What goes on once references have been followed is for both contexts the same. -/
theorem after_follow (h : Related P c derive) {α : Type} {ty : Ty} {k k' : List Predicate × Ty → Check α}
    (hk : ∀ ps ty', P (k (ps, ty')) (k' (ps, ty'))) :
    P (c.follow c.schema.predicates.size ty >>= k)
      (TypingContext.follow { c with derive } c.schema.predicates.size ty >>= k') :=
  h.bind (h.follow ty) fun r => hk r.1 r.2

mutual
theorem pattern (h : Related P c derive) : (p : Pattern) → {path : List String} → {ty : Ty} →
    P (c.pattern path ty p) (TypingContext.pattern { c with derive } path ty p)
  | .wild, _, _ => by
      rw [TypingContext.pattern, TypingContext.pattern]
      exact h.plain (.pure _)
  | .noExpand inner, path, _ => by
      rw [TypingContext.pattern, TypingContext.pattern]
      exact h.bind (h.plain (plain_mark path)) fun _ => pattern h inner
  | .var name, _, ty => by
      rw [TypingContext.pattern, TypingContext.pattern]
      exact h.plain (plain_occurrence name ty)
  | .nat n, _, _ => by
      rw [TypingContext.pattern, TypingContext.pattern]
      refine h.after_follow fun ps ty' => h.plain ?_
      dsimp only
      split
      · exact .pure _
      · split
        · exact .pure _
        · exact .fail _
      · exact .fail _
  | .string s, _, _ => by
      rw [TypingContext.pattern, TypingContext.pattern]
      refine h.after_follow fun ps ty' => h.plain ?_
      dsimp only
      split
      · exact .pure _
      · exact .fail _
  | .stringStart s, _, _ => by
      rw [TypingContext.pattern, TypingContext.pattern]
      refine h.after_follow fun ps ty' => h.plain ?_
      dsimp only
      split
      · exact .pure _
      · exact .fail _
  | .bool b, _, _ => by
      rw [TypingContext.pattern, TypingContext.pattern]
      refine h.after_follow fun ps ty' => h.plain ?_
      dsimp only
      split
      · exact .pure _
      · exact .fail _
  | .array items, _, _ => by
      rw [TypingContext.pattern, TypingContext.pattern]
      refine h.after_follow fun ps ty' => ?_
      dsimp only
      split
      · exact h.bind (patterns h items) fun _ => h.plain (.pure _)
      · exact h.plain (.fail _)
  | .fields given, _, _ => by
      rw [TypingContext.pattern, TypingContext.pattern]
      refine h.after_follow fun ps ty' => ?_
      dsimp only
      split
      · exact h.bind (fieldPatterns h given) fun _ => h.plain (.pure _)
      · match given with
        | [(name, sub)] =>
          refine h.bind (h.plain (plain_field _ _ _)) fun _ => h.bind (pattern h sub) fun _ => ?_
          exact h.plain ((plain_altIndex _).bind fun _ => .pure _)
        | [] => exact h.plain (.fail _)
        | _ :: _ :: _ => exact h.plain (.fail _)
      · exact h.plain (.fail _)
  | .tuple items, _, _ => by
      rw [TypingContext.pattern, TypingContext.pattern]
      refine h.after_follow fun ps ty' => ?_
      dsimp only
      split
      · split
        · exact h.bind (tuplePatterns h items) fun _ => h.plain (.pure _)
        · exact h.plain (.fail _)
      · exact h.plain (.fail _)

theorem patterns (h : Related P c derive) : (ps : List Pattern) → {path : List String} → {elem : Ty} →
    P (c.patterns path elem ps) (TypingContext.patterns { c with derive } path elem ps)
  | [], _, _ => by
      rw [TypingContext.patterns, TypingContext.patterns]
      exact h.plain (.pure _)
  | p :: ps, _, _ => by
      rw [TypingContext.patterns, TypingContext.patterns]
      exact h.bind (pattern h p) fun _ => h.bind (patterns h ps) fun _ => h.plain (.pure _)

theorem fieldPatterns (h : Related P c derive) : (given : List (String × Pattern)) →
    {path : List String} → {fields : List Field} → {whole : Ty} →
    P (c.fieldPatterns path fields whole given)
      (TypingContext.fieldPatterns { c with derive } path fields whole given)
  | [], _, _, _ => by
      rw [TypingContext.fieldPatterns, TypingContext.fieldPatterns]
      exact h.plain (.pure _)
  | (name, sub) :: rest, _, _, _ => by
      rw [TypingContext.fieldPatterns, TypingContext.fieldPatterns]
      refine h.bind (h.plain (plain_field _ _ _)) fun _ => h.bind (pattern h sub) fun _ => ?_
      exact h.bind (fieldPatterns h rest) fun _ => h.plain (.pure _)

theorem tuplePatterns (h : Related P c derive) : (items : List Pattern) → {path : List String} →
    {i : Nat} → {fields : List Field} → P (c.tuplePatterns path i fields items)
      (TypingContext.tuplePatterns { c with derive } path i fields items)
  | [], _, _, _ | _ :: _, _, _, [] => by
      rw [TypingContext.tuplePatterns, TypingContext.tuplePatterns]
      · exact h.plain (.pure _)
      · simp
      · simp
  | p :: ps, _, _, f :: fs => by
      rw [TypingContext.tuplePatterns, TypingContext.tuplePatterns]
      exact h.bind (pattern h p) fun _ => h.bind (tuplePatterns h ps) fun _ => h.plain (.pure _)
end

theorem facts (h : Related P c derive) {d : Definition} (hd : c.schema.get? d.predicate = some d)
    (key value : Option Pattern) :
    P (c.facts d key value) (TypingContext.facts { c with derive } d key value) := by
  have hpart (path : List String) (ty : Ty) (p : Option Pattern) :
      P (c.optionalPattern path ty p) (optionalPattern { c with derive } path ty p) := by
    cases p with
    | some p => exact h.pattern p
    | none => exact h.plain (.pure _)
  rw [facts_eq, facts_eq]
  refine h.bind (h.enter d hd) fun _ => h.bind (hpart _ _ _) fun _ => ?_
  exact h.bind (hpart _ _ _) fun _ => h.plain (.pure _)

theorem supply (h : Related P c derive) (hs : c.schema.Coherent) (source : Source) :
    P (c.supply source) (TypingContext.supply { c with derive } source) := by
  have hexpr (p : Pattern) : Plain (do
      let r ← expr p none
      return (.expr r.1, .ofTy r.2) : Check (Supply × Outcome)) :=
    (plain_expr p none).bind fun _ => .pure _
  cases source with
  | factId id => exact h.plain (.pure _)
  | expr p => exact h.plain (hexpr p)
  | prim name arg =>
      refine h.plain ?_
      unfold TypingContext.supply
      dsimp only
      split
      · exact .throw fun heq => by cases heq
      · refine (plain_expr arg none).bind fun r => ?_
        split
        · exact .pure _
        · exact .fail _
      · exact (plain_expr arg _).bind fun _ => .pure _
  | predicate name version key value =>
      unfold TypingContext.supply
      refine h.get (fun _ _ => rfl) (fun _ _ => rfl) fun t => ?_
      split
      · exact h.plain (hexpr _)
      · rw [show resolve { c with derive } name version = c.resolve name version from rfl]
        cases hresolve : c.resolve name version with
        | ok d => exact h.facts (resolve_defines hs hresolve) key value
        | error e =>
            cases e <;> dsimp only <;> try split
            all_goals exact h.plain (.throw fun heq => by cases heq)

theorem binding (h : Related P c derive) (bind : Option Pattern) (o : Outcome) :
    P (c.binding bind o) (TypingContext.binding { c with derive } bind o) := by
  unfold TypingContext.binding
  split
  · exact h.plain (.pure _)
  · exact h.plain (.pure _)
  · exact h.plain (.fail _)
  · exact h.pattern _
  · exact h.pattern _

theorem stages (h : Related P c derive) (hs : c.schema.Coherent) (more : Bool) (first : Outcome)
    (ss : List Statement) :
    P (c.stages more first ss) (TypingContext.stages { c with derive } more first ss) := by
  induction ss generalizing first with
  | nil => exact h.plain (.pure _)
  | cons s ss ih =>
      unfold TypingContext.stages
      refine h.bind (h.supply hs s.source) fun found => ?_
      have hrest : P (do
            let bind ← c.binding s.bind found.2
            let rest ← c.stages more found.2 ss
            return (⟨found.1, bind⟩ :: rest.1, rest.2))
          (do
            let bind ← TypingContext.binding { c with derive } s.bind found.2
            let rest ← TypingContext.stages { c with derive } more found.2 ss
            return (⟨found.1, bind⟩ :: rest.1, rest.2)) :=
        h.bind (h.binding _ _) fun _ => h.bind (ih found.2) fun _ => h.plain (.pure _)
      dsimp only
      split
      · split
        · exact h.bind (h.plain (.fail _)) fun _ => hrest
        · exact hrest
      · exact hrest

end Related

end TypingContext

end Factbase
