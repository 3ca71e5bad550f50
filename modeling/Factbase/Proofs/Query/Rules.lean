import Factbase.Proofs.Outcome
import Factbase.Query.Typing

/-!
# The rules of typing

Rules say what typing gives where it succeeds, apart from the order of its
steps, its errors and its bound on references. An expression leaves
everything as it is (`Expresses`). A pattern binds variables, marks places
and enters predicates, so its rules have what is known before and after it
(`Fits`): references are followed first (`Follows`), and behind them a
pattern is for values of the type that they lead to (`FitsValue`). Sources
(`Draws`) and the patterns of statements (`Meets`) build on these.

Whatever typing gives, it gives by the rules (`expr_expresses`,
`pattern_fits`, `supply_draws`, `binding_meets`). So what is to hold of all
that it gives is proved by going through the rules.
-/

namespace Factbase

/-! ## Steps that change nothing -/

namespace Check

variable {α β : Type} {t : Typing} {P : α → Prop} {Q : β → Prop}

/-- Where a step of typing succeeds, it changes nothing and `P` holds of what it gives. -/
def Gives (t : Typing) (P : α → Prop) (x : Check α) : Prop :=
  ∀ a t', x t = .ok (a, t') → t' = t ∧ P a

namespace Gives

theorem pure {a : α} (h : P a) : Gives t P (pure a : Check α) := by
  intro b t' hb
  obtain ⟨rfl, rfl⟩ := Outcome.stateT_pure_ok_iff.mp hb
  exact ⟨rfl, h⟩

theorem throw {e : Error} : Gives t P (throw e : Check α) :=
  fun _ _ h => (Outcome.stateT_throw_ok_iff.mp h).elim

theorem fail {e : TypeFault} : Gives t P (Check.fail e : Check α) := throw

theorem bind {x : Check α} {k : α → Check β} (hx : Gives t P x) (hk : ∀ a, P a → Gives t Q (k a)) :
    Gives t Q (x >>= k) := by
  intro b t' h
  obtain ⟨a, t₁, ha, hb⟩ := Outcome.stateT_bind_ok_iff.mp h
  obtain ⟨rfl, hP⟩ := hx a t₁ ha
  exact hk a hP b t' hb

/-- A step that looks at what is known. -/
theorem get {k : Typing → Check α} (h : Gives t P (k t)) : Gives t P (get >>= k) := by
  intro a t' ha
  obtain ⟨t₁, t₂, hget, ha⟩ := Outcome.stateT_bind_ok_iff.mp ha
  obtain ⟨rfl, rfl⟩ := Outcome.stateT_get_ok_iff.mp hget
  exact h a t' ha

end Gives

theorem gives_field (name : String) (fields : List Field) (whole : Ty) :
    Gives t (fun r => ∃ f, Field.locate? name fields = some (r.1, f) ∧ f.ty = r.2)
      (field name fields whole) := by
  unfold field
  split
  · exact .pure ⟨_, ‹_›, rfl⟩
  · exact .fail

theorem gives_altIndex (i : Nat) : Gives t (fun index => index.toNat = i) (altIndex i) := by
  unfold altIndex
  split
  · exact .pure (by rw [UInt32.toNat_ofNat', Nat.mod_eq_of_lt ‹_›])
  · exact .fail

end Check

/-! ## Literals -/

/-- The pattern is a literal, and that is a value of the type. -/
inductive Pattern.Literal : Pattern → Ty → Value → Prop
  | nat (n : UInt64) : Literal (.nat n) .nat (.nat n)
  | byte {n : UInt64} (h : n.toNat < 256) : Literal (.nat n) .byte (.byte n.toUInt8)
  | string (s : String) : Literal (.string s) .string (.string s)
  | bool (b : Bool) : Literal (.bool b) .bool (.bool b)

namespace TypingContext

open Check

/-! ## Expressions -/

mutual
/-- A pattern is an expression of a type, where a type may be expected. With none expected a number
is no byte, an array takes the type of its first item, and a record has the fields that are given. -/
inductive Expresses (t : Typing) : Pattern → Option Ty → Expr → Ty → Prop
  | noExpand {p : Pattern} {expected : Option Ty} {e : Expr} {ty : Ty}
      (h : Expresses t p expected e ty) : Expresses t (.noExpand p) expected e ty
  | var {name : String} {expected : Option Ty} {v : Nat} {ty : Ty}
      (hlocate : locate? name t.vars = some (v, ty))
      (hcompatible : ∀ want ∈ expected, ty.compatible want = true) :
      Expresses t (.var name) expected (.var v) ty
  | lit {p : Pattern} {expected : Option Ty} {value : Value} {ty : Ty} (h : p.Literal ty value)
      (hexpected : expected = some ty ∨ expected = none ∧ ty ≠ .byte) :
      Expresses t p expected (.lit value) ty
  | array {items : List Pattern} {es : List Expr} {elem : Ty} (h : ExpressesAll t elem items es) :
      Expresses t (.array items) (some (.array elem)) (.array es) (.array elem)
  | items {p : Pattern} {ps : List Pattern} {e : Expr} {es : List Expr} {elem : Ty}
      (h : Expresses t p none e elem) (hs : ExpressesAll t elem ps es) :
      Expresses t (.array (p :: ps)) none (.array (e :: es)) (.array elem)
  | record {given : List (String × Pattern)} {fields : List Field} {es : List Expr}
      (hknown : ∀ g ∈ given, ∃ f ∈ fields, f.name = g.1) (h : ExpressesFields t given fields es) :
      Expresses t (.fields given) (some (.record fields)) (.record es) (.record fields)
  | fields {given : List (String × Pattern)} {found : List (Field × Expr)}
      (h : ExpressesGiven t [] given found) :
      Expresses t (.fields given) none (.record (found.map (·.2))) (.record (found.map (·.1)))
  | alt {name : String} {p : Pattern} {alts : List Field} {i : Nat} {alt : Field} {index : UInt32}
      {e : Expr} {ty : Ty} (halt : Field.locate? name alts = some (i, alt)) (hindex : index.toNat = i)
      (h : Expresses t p (some alt.ty) e ty) :
      Expresses t (.fields [(name, p)]) (some (.sum alts)) (.alt index e) (.sum alts)
  | tuple {items : List Pattern} {fields : List Field} {es : List Expr}
      (h : ExpressesInOrder t fields items es) :
      Expresses t (.tuple items) (some (.record fields)) (.record es) (.record fields)

/-- Patterns are expressions of one type. -/
inductive ExpressesAll (t : Typing) : Ty → List Pattern → List Expr → Prop
  | nil {elem : Ty} : ExpressesAll t elem [] []
  | cons {elem ty : Ty} {p : Pattern} {ps : List Pattern} {e : Expr} {es : List Expr}
      (h : Expresses t p (some elem) e ty) (hs : ExpressesAll t elem ps es) :
      ExpressesAll t elem (p :: ps) (e :: es)

/-- Named patterns give the fields of a record; for one that they leave out stands its default. -/
inductive ExpressesFields (t : Typing) :
    List (String × Pattern) → List Field → List Expr → Prop
  | nil {given : List (String × Pattern)} : ExpressesFields t given [] []
  | given {given : List (String × Pattern)} {f : Field} {fields : List Field} {p : Pattern} {e : Expr}
      {es : List Expr} {ty : Ty} (hp : (f.name, p) ∈ given) (h : Expresses t p (some f.ty) e ty)
      (hs : ExpressesFields t given fields es) : ExpressesFields t given (f :: fields) (e :: es)
  | default {given : List (String × Pattern)} {f : Field} {fields : List Field} {value : Value}
      {es : List Expr} (hnone : ∀ g ∈ given, g.1 ≠ f.name) (hdefault : f.default? = some value)
      (hs : ExpressesFields t given fields es) :
      ExpressesFields t given (f :: fields) (.lit value :: es)

/-- Patterns are expressions for the fields of a record, in order. -/
inductive ExpressesInOrder (t : Typing) : List Field → List Pattern → List Expr → Prop
  | nil : ExpressesInOrder t [] [] []
  | cons {f : Field} {fields : List Field} {p : Pattern} {ps : List Pattern} {e : Expr}
      {es : List Expr} {ty : Ty} (h : Expresses t p (some f.ty) e ty)
      (hs : ExpressesInOrder t fields ps es) : ExpressesInOrder t (f :: fields) (p :: ps) (e :: es)

/-- Named patterns make up a record; `seen` has the names before them, and none comes twice. -/
inductive ExpressesGiven (t : Typing) :
    List String → List (String × Pattern) → List (Field × Expr) → Prop
  | nil {seen : List String} : ExpressesGiven t seen [] []
  | cons {seen : List String} {name : String} {p : Pattern} {rest : List (String × Pattern)} {e : Expr}
      {ty : Ty} {found : List (Field × Expr)} (hnew : name ∉ seen) (h : Expresses t p none e ty)
      (hs : ExpressesGiven t (name :: seen) rest found) :
      ExpressesGiven t seen ((name, p) :: rest) ((.plain name ty, e) :: found)
end

variable {t : Typing}

/-- Of patterns that each field of a record is looked for in. -/
theorem recordExprs_expresses {given : List (String × Pattern)} {fields : List Field}
    {each : Field → Check Expr}
    (h : ∀ f ∈ fields, Gives t (fun e =>
      (∃ p ty, (f.name, p) ∈ given ∧ Expresses t p (some f.ty) e ty) ∨
      ∃ value, (∀ g ∈ given, g.1 ≠ f.name) ∧ f.default? = some value ∧ e = .lit value) (each f)) :
    Gives t (ExpressesFields t given fields) (fields.mapM each) := by
  induction fields with
  | nil => exact .pure .nil
  | cons f fields ih =>
      obtain ⟨hhere, hthere⟩ := List.forall_mem_cons.mp h
      rw [List.mapM_cons]
      refine hhere.bind fun e he => (ih hthere).bind fun es hes => .pure ?_
      obtain ⟨p, ty, hp, he⟩ | ⟨value, hnone, hdefault, rfl⟩ := he
      · exact .given hp he hes
      · exact .default hnone hdefault hes

mutual
/-- What a pattern is as an expression, it is by the rules. -/
theorem expr_expresses : (p : Pattern) → (expected : Option Ty) →
    Gives t (fun r => Expresses t p expected r.1 r.2) (expr p expected)
  | .noExpand inner, expected => by
      rw [expr]
      exact fun r t' h => (expr_expresses inner expected r t' h).imp_right .noExpand
  | .wild, _ | .stringStart _, _ => by
      rw [expr]
      exact .fail
  | .var name, expected => by
      rw [expr]
      refine .get ?_
      split
      · exact .throw
      · rename_i hlocate
        split
        · split
          · exact .pure (.var hlocate (by rintro _ ⟨rfl⟩; assumption))
          · exact .fail
        · exact .pure (.var hlocate nofun)
  | .nat n, expected => by
      rw [expr.eq_def]
      dsimp only
      split
      · split
        · exact .pure (.lit (.byte ‹_›) (.inl rfl))
        · exact .fail
      · exact .pure (.lit (.nat n) (.inr ⟨rfl, nofun⟩))
      · exact .pure (.lit (.nat n) (.inl rfl))
      · exact .fail
  | .string s, expected => by
      rw [expr.eq_def]
      dsimp only
      split
      · exact .pure (.lit (.string s) (.inr ⟨rfl, nofun⟩))
      · exact .pure (.lit (.string s) (.inl rfl))
      · exact .fail
  | .bool b, expected => by
      rw [expr.eq_def]
      dsimp only
      split
      · exact .pure (.lit (.bool b) (.inr ⟨rfl, nofun⟩))
      · exact .pure (.lit (.bool b) (.inl rfl))
      · exact .fail
  | .array items, expected => by
      rw [expr.eq_def]
      dsimp only
      split
      · exact (exprs_expresses _ items).bind fun _ hes => .pure (.array hes)
      · exact .fail
      · match items with
        | [] => exact .fail
        | first :: rest =>
          exact (expr_expresses first none).bind fun head hhead =>
            (exprs_expresses head.2 rest).bind fun es hes => .pure (.items hhead hes)
  | .fields given, expected => by
      rw [expr.eq_def]
      dsimp only
      split
      · rename_i fields
        split
        · exact .fail
        · rename_i hunknown
          have hknown : ∀ g ∈ given, ∃ f ∈ fields, f.name = g.1 := fun g hg => by
            simpa using List.find?_eq_none.mp hunknown g hg
          refine .bind (recordExprs_expresses fun f _ => ?_) fun _ hes => .pure (.record hknown hes)
          refine (namedExpr_expresses f.name f.ty given).bind fun found hfound => ?_
          split
          · obtain ⟨p, ty, hp, he⟩ := hfound.1 _ rfl
            exact .pure (.inl ⟨p, ty, hp, he⟩)
          · split
            · exact .pure (.inr ⟨_, hfound.2 rfl, ‹_›, rfl⟩)
            · exact .fail
      · match given with
        | [(name, sub)] =>
          refine (gives_field _ _ _).bind fun found hfound => ?_
          obtain ⟨alt, halt, hty⟩ := hfound
          refine (expr_expresses sub (some found.2)).bind fun payload hpayload => ?_
          exact (gives_altIndex found.1).bind fun index hindex =>
            .pure (.alt halt hindex (hty ▸ hpayload))
        | [] => exact .fail
        | _ :: _ :: _ => exact .fail
      · exact .fail
      · exact (inferFields_expresses [] given).bind fun _ hes => .pure (.fields hes)
  | .tuple items, expected => by
      rw [expr.eq_def]
      dsimp only
      split
      · rename_i fields
        split
        · rename_i hlength
          exact (tupleExprs_expresses fields items hlength.symm).bind fun _ hes => .pure (.tuple hes)
        · exact .fail
      · exact .fail
      · exact .fail

theorem exprs_expresses (elem : Ty) : (ps : List Pattern) →
    Gives t (ExpressesAll t elem ps) (exprs elem ps)
  | [] => by
      rw [exprs]
      exact .pure .nil
  | p :: ps => by
      rw [exprs]
      exact (expr_expresses p (some elem)).bind fun e he => (exprs_expresses elem ps).bind fun es hes =>
        .pure (.cons he hes)

theorem namedExpr_expresses (name : String) (ty : Ty) : (given : List (String × Pattern)) →
    Gives t (fun found =>
      (∀ e, found = some e → ∃ p ty', (name, p) ∈ given ∧ Expresses t p (some ty) e ty') ∧
      (found = none → ∀ g ∈ given, g.1 ≠ name)) (namedExpr name ty given)
  | [] => by
      rw [namedExpr]
      exact .pure ⟨nofun, fun _ => List.forall_mem_nil _⟩
  | (n, p) :: rest => by
      rw [namedExpr]
      split
      · rename_i hname
        refine (expr_expresses p (some ty)).bind fun r he => .pure ⟨fun e hsome => ?_, nofun⟩
        obtain rfl := Option.some.inj hsome
        exact ⟨p, r.2, hname ▸ List.mem_cons_self .., he⟩
      · rename_i hname
        intro found t' h
        obtain ⟨hsame, hsome, hnone⟩ := namedExpr_expresses name ty rest found t' h
        refine ⟨hsame, fun e he => ?_, fun hfound => List.forall_mem_cons.mpr ⟨hname, hnone hfound⟩⟩
        obtain ⟨p', ty', hp', he'⟩ := hsome e he
        exact ⟨p', ty', List.mem_cons_of_mem _ hp', he'⟩

theorem tupleExprs_expresses : (fields : List Field) → (items : List Pattern) →
    fields.length = items.length → Gives t (ExpressesInOrder t fields items) (tupleExprs fields items)
  | f :: fs, p :: ps, h => by
      rw [tupleExprs]
      exact (expr_expresses p (some f.ty)).bind fun e he =>
        (tupleExprs_expresses fs ps (Nat.succ.inj h)).bind fun es hes => .pure (.cons he hes)
  | [], [], _ => by
      rw [tupleExprs]
      · exact .pure .nil
      · simp

theorem inferFields_expresses (seen : List String) : (given : List (String × Pattern)) →
    Gives t (ExpressesGiven t seen given) (inferFields seen given)
  | [] => by
      rw [inferFields]
      exact .pure .nil
  | (name, p) :: rest => by
      rw [inferFields]
      split
      · exact Gives.bind (P := fun _ => False) .fail nofun
      · rename_i hseen
        have hnew : name ∉ seen := by simpa using hseen
        exact (expr_expresses p none).bind fun e he =>
          (inferFields_expresses (name :: seen) rest).bind fun es hes => .pure (.cons hnew he hes)
end

/-! ## Patterns -/

variable {c : TypingContext} {t' : Typing}

theorem enter_ok_iff {d : Definition} {u : Unit} : c.enter d t = .ok (u, t') ↔
    ∃ bodies, c.derive d t.bodies = .ok bodies ∧ t' = { t with bodies } := by
  unfold enter
  cases c.derive d t.bodies with
  | error e => simp
  | ok bodies => simp [eq_comm]

/-- References lead from a type to one that is no reference. Their predicates are entered. -/
inductive Follows (c : TypingContext) : Ty → Typing → List Predicate → Ty → Typing → Prop
  | here {ty : Ty} {t : Typing} (hty : ∀ p, ty ≠ .predicate p) : Follows c ty t [] ty t
  | step {p : Predicate} {d : Definition} {t t' : Typing} {bodies : Bodies} {ps : List Predicate}
      {ty : Ty} (hd : c.schema.get? p = some d) (henter : c.derive d t.bodies = .ok bodies)
      (h : Follows c d.key { t with bodies } ps ty t') : Follows c (.predicate p) t (p :: ps) ty t'

mutual
/-- The match of a pattern for values of a type at a path, with what is known before and after
it. -/
inductive Fits (c : TypingContext) : List String → Ty → Pattern → Typing → Match → Typing → Prop
  | wild {path : List String} {ty : Ty} {t : Typing} : Fits c path ty .wild t .wild t
  | noExpand {path : List String} {ty : Ty} {p : Pattern} {t t' : Typing} {m : Match}
      (h : Fits c path ty p { t with noExpand := t.noExpand.add path } m t') :
      Fits c path ty (.noExpand p) t m t'
  | same {path : List String} {ty bound : Ty} {name : String} {t : Typing} {v : Nat}
      (hlocate : locate? name t.vars = some (v, bound)) (hcompatible : bound.compatible ty = true) :
      Fits c path ty (.var name) t (.same v) t
  | bind {path : List String} {ty : Ty} {name : String} {t : Typing}
      (hlocate : locate? name t.vars = none) :
      Fits c path ty (.var name) t (.bind t.vars.length) { t with vars := t.vars ++ [⟨name, ty⟩] }
  | value {path : List String} {ty ty' : Ty} {p : Pattern} {t t₁ t' : Typing} {ps : List Predicate}
      {m : Match} (hfollow : c.Follows ty t ps ty' t₁) (h : FitsValue c path ty' p t₁ m t') :
      Fits c path ty p t (through ps m) t'

/-- The match of a pattern for values of a type that is no reference. -/
inductive FitsValue (c : TypingContext) :
    List String → Ty → Pattern → Typing → Match → Typing → Prop
  | lit {path : List String} {ty : Ty} {p : Pattern} {t : Typing} {value : Value}
      (h : p.Literal ty value) : FitsValue c path ty p t (.lit value) t
  | stringStart {path : List String} {s : String} {t : Typing} :
      FitsValue c path .string (.stringStart s) t (.stringStart s) t
  | array {path : List String} {elem : Ty} {items : List Pattern} {t t' : Typing} {ms : List Match}
      (h : FitsItems c path elem items t ms t') :
      FitsValue c path (.array elem) (.array items) t (.array ms) t'
  | record {path : List String} {fields : List Field} {given : List (String × Pattern)}
      {t t' : Typing} {ms : List (Nat × Match)} (h : FitsFields c path fields given t ms t') :
      FitsValue c path (.record fields) (.fields given) t (.record fields.length ms) t'
  | alt {path : List String} {alts : List Field} {name : String} {p : Pattern} {i : Nat} {alt : Field}
      {index : UInt32} {t t' : Typing} {m : Match} (halt : Field.locate? name alts = some (i, alt))
      (hindex : index.toNat = i) (h : Fits c (path ++ [name]) alt.ty p t m t') :
      FitsValue c path (.sum alts) (.fields [(name, p)]) t (.alt index m) t'
  | tuple {path : List String} {fields : List Field} {items : List Pattern} {t t' : Typing}
      {ms : List (Nat × Match)} (h : FitsInOrder c path fields 0 items t ms t') :
      FitsValue c path (.record fields) (.tuple items) t (.record fields.length ms) t'

/-- The matches of patterns for the items of an array. -/
inductive FitsItems (c : TypingContext) :
    List String → Ty → List Pattern → Typing → List Match → Typing → Prop
  | nil {path : List String} {elem : Ty} {t : Typing} : FitsItems c path elem [] t [] t
  | cons {path : List String} {elem : Ty} {p : Pattern} {ps : List Pattern} {t t₁ t' : Typing}
      {m : Match} {ms : List Match} (h : Fits c path elem p t m t₁)
      (hs : FitsItems c path elem ps t₁ ms t') : FitsItems c path elem (p :: ps) t (m :: ms) t'

/-- The matches of patterns for named fields of a record. -/
inductive FitsFields (c : TypingContext) :
    List String → List Field → List (String × Pattern) → Typing → List (Nat × Match) → Typing → Prop
  | nil {path : List String} {fields : List Field} {t : Typing} : FitsFields c path fields [] t [] t
  | cons {path : List String} {fields : List Field} {name : String} {p : Pattern}
      {rest : List (String × Pattern)} {i : Nat} {f : Field} {t t₁ t' : Typing} {m : Match}
      {ms : List (Nat × Match)} (hf : Field.locate? name fields = some (i, f))
      (h : Fits c (path ++ [name]) f.ty p t m t₁) (hs : FitsFields c path fields rest t₁ ms t') :
      FitsFields c path fields ((name, p) :: rest) t ((i, m) :: ms) t'

/-- The matches of patterns for the fields of a record in order, from the one at an index on. -/
inductive FitsInOrder (c : TypingContext) : List String → List Field → Nat → List Pattern →
    Typing → List (Nat × Match) → Typing → Prop
  | nil {path : List String} {fields : List Field} {i : Nat} {t : Typing} :
      FitsInOrder c path fields i [] t [] t
  | cons {path : List String} {fields : List Field} {i : Nat} {f : Field} {p : Pattern}
      {ps : List Pattern} {t t₁ t' : Typing} {m : Match} {ms : List (Nat × Match)}
      (hf : fields[i]? = some f) (h : Fits c (path ++ [f.name]) f.ty p t m t₁)
      (hs : FitsInOrder c path fields (i + 1) ps t₁ ms t') :
      FitsInOrder c path fields i (p :: ps) t ((i, m) :: ms) t'
end

theorem follow_other {fuel : Nat} {ty : Ty} (hty : ∀ p, ty ≠ .predicate p) :
    c.follow fuel ty = pure ([], ty) := by
  cases ty with
  | predicate p => exact absurd rfl (hty p)
  | _ => cases fuel <;> rfl

/-- References are followed from a type that is none, which ends at once, or from a reference,
to where its key leads. -/
theorem follow_cases {fuel : Nat} {ty ty' : Ty} {ps : List Predicate}
    (h : c.follow fuel ty t = .ok ((ps, ty'), t')) :
    (∀ p, ty ≠ .predicate p) ∧ ps = [] ∧ ty' = ty ∧ t' = t ∨
      ∃ (p : Predicate) (d : Definition) (n : Nat) (qs : List Predicate) (u : Unit) (t₁ : Typing),
        ty = .predicate p ∧ c.schema.get? p = some d ∧ fuel = n + 1 ∧ ps = p :: qs ∧
        c.enter d t = .ok (u, t₁) ∧ c.follow n d.key t₁ = .ok ((qs, ty'), t') := by
  by_cases hpred : ∃ p, ty = .predicate p
  · obtain ⟨p, rfl⟩ := hpred
    rw [follow] at h
    cases hd : c.schema.get? p with
    | none =>
        simp only [hd] at h
        exact (Outcome.stateT_throw_ok_iff.mp h).elim
    | some d =>
        simp only [hd] at h
        obtain ⟨u, t₁, henter, h⟩ := Outcome.stateT_bind_ok_iff.mp h
        cases fuel with
        | zero => exact (Outcome.stateT_throw_ok_iff.mp h).elim
        | succ n =>
            obtain ⟨⟨qs, ty₂⟩, t₂, hfollow, h⟩ := Outcome.stateT_bind_ok_iff.mp h
            obtain ⟨hout, rfl⟩ := Outcome.stateT_pure_ok_iff.mp h
            cases hout
            exact .inr ⟨p, d, n, qs, u, t₁, rfl, hd, rfl, rfl, henter, hfollow⟩
  · rw [follow_other (not_exists.mp hpred)] at h
    obtain ⟨hout, rfl⟩ := Outcome.stateT_pure_ok_iff.mp h
    cases hout
    exact .inl ⟨not_exists.mp hpred, rfl, rfl, rfl⟩

theorem follow_follows {fuel : Nat} {ty ty' : Ty} {ps : List Predicate}
    (h : c.follow fuel ty t = .ok ((ps, ty'), t')) : c.Follows ty t ps ty' t' := by
  induction fuel generalizing ty ps t with
  | zero =>
      obtain ⟨hty, rfl, rfl, rfl⟩ | ⟨_, _, _, _, _, _, -, -, hfuel, -⟩ := follow_cases h
      · exact .here hty
      · cases hfuel
  | succ fuel ih =>
      obtain ⟨hty, rfl, rfl, rfl⟩ | ⟨p, d, n, qs, u, t₁, rfl, hd, hfuel, rfl, henter, hfollow⟩ :=
        follow_cases h
      · exact .here hty
      · cases hfuel
        obtain ⟨bodies, hderive, rfl⟩ := enter_ok_iff.mp henter
        exact .step hd hderive (ih hfollow)

/-- An occurrence of a variable binds it or compares it. -/
theorem occurrence_fits {path : List String} {name : String} {ty : Ty} {m : Match}
    (h : occurrence name ty t = .ok (m, t')) : c.Fits path ty (.var name) t m t' := by
  unfold occurrence at h
  split at h
  · split at h
    · cases h
      exact .same ‹_› ‹_›
    · cases h
  · cases h
    exact .bind ‹_›

theorem fail_ne_ok {α : Type} {e : TypeFault} {a : α} :
    (fail e : Check α) t ≠ .ok (a, t') :=
  fun h => Outcome.stateT_throw_ok_iff.mp h

/-- A pattern for what references lead to. -/
theorem follow_fits {path : List String} {p : Pattern} {n : Nat} {ty : Ty}
    {k : List Predicate × Ty → Check Match} {m : Match}
    (hk : ∀ ps ty' t₁, k (ps, ty') t₁ = .ok (m, t') →
      ∃ inner, m = through ps inner ∧ c.FitsValue path ty' p t₁ inner t')
    (h : (c.follow n ty >>= k) t = .ok (m, t')) : c.Fits path ty p t m t' := by
  obtain ⟨⟨ps, ty'⟩, t₁, hfollow, hrest⟩ := Outcome.stateT_bind_ok_iff.mp h
  obtain ⟨inner, rfl, hinner⟩ := hk ps ty' t₁ hrest
  exact .value (follow_follows hfollow) hinner

/-- A literal behind references. -/
theorem literal_fits {path : List String} {p : Pattern} {ps : List Predicate} {ty : Ty} {m : Match}
    {value : Value} (hp : p.Literal ty value)
    (h : (pure (through ps (.lit value)) : Check Match) t = .ok (m, t')) :
    ∃ inner, m = through ps inner ∧ c.FitsValue path ty p t inner t' := by
  obtain ⟨rfl, rfl⟩ := Outcome.stateT_pure_ok_iff.mp h
  exact ⟨_, rfl, .lit hp⟩

mutual
/-- What a pattern matches, it matches by the rules. -/
theorem pattern_fits : (p : Pattern) → {path : List String} → {ty : Ty} → {t t' : Typing} →
    {m : Match} → c.pattern path ty p t = .ok (m, t') → c.Fits path ty p t m t'
  | .wild, _, _, _, _, _, h => by
      rw [pattern] at h
      obtain ⟨rfl, rfl⟩ := Outcome.stateT_pure_ok_iff.mp h
      exact .wild
  | .noExpand inner, _, _, _, _, _, h => by
      rw [pattern] at h
      obtain ⟨u, t₁, hmark, hinner⟩ := Outcome.stateT_bind_ok_iff.mp h
      cases hmark
      exact .noExpand (pattern_fits inner hinner)
  | .var name, _, _, _, _, _, h => by
      rw [pattern] at h
      exact occurrence_fits h
  | .nat n, _, _, _, _, _, h => by
      rw [pattern] at h
      refine follow_fits (fun ps ty' t₁ hrest => ?_) h
      cases ty' with
      | nat => exact literal_fits (.nat n) hrest
      | byte =>
          dsimp only at hrest
          split at hrest
          · exact literal_fits (.byte ‹_›) hrest
          · exact (fail_ne_ok hrest).elim
      | _ => exact (fail_ne_ok hrest).elim
  | .string s, _, _, _, _, _, h => by
      rw [pattern] at h
      refine follow_fits (fun ps ty' t₁ hrest => ?_) h
      cases ty' with
      | string => exact literal_fits (.string s) hrest
      | _ => exact (fail_ne_ok hrest).elim
  | .stringStart s, _, _, _, _, _, h => by
      rw [pattern] at h
      refine follow_fits (fun ps ty' t₁ hrest => ?_) h
      cases ty' with
      | string =>
          obtain ⟨rfl, rfl⟩ := Outcome.stateT_pure_ok_iff.mp hrest
          exact ⟨_, rfl, .stringStart⟩
      | _ => exact (fail_ne_ok hrest).elim
  | .bool b, _, _, _, _, _, h => by
      rw [pattern] at h
      refine follow_fits (fun ps ty' t₁ hrest => ?_) h
      cases ty' with
      | bool => exact literal_fits (.bool b) hrest
      | _ => exact (fail_ne_ok hrest).elim
  | .array items, _, _, _, _, _, h => by
      rw [pattern] at h
      refine follow_fits (fun ps ty' t₁ hrest => ?_) h
      cases ty' with
      | array elem =>
          obtain ⟨ms, t₂, hms, hout⟩ := Outcome.stateT_bind_ok_iff.mp hrest
          obtain ⟨rfl, rfl⟩ := Outcome.stateT_pure_ok_iff.mp hout
          exact ⟨_, rfl, .array (patterns_fits items hms)⟩
      | _ => exact (fail_ne_ok hrest).elim
  | .fields given, _, _, _, _, _, h => by
      rw [pattern] at h
      refine follow_fits (fun ps ty' t₁ hrest => ?_) h
      cases ty' with
      | record fields =>
          obtain ⟨ms, t₂, hms, hout⟩ := Outcome.stateT_bind_ok_iff.mp hrest
          obtain ⟨rfl, rfl⟩ := Outcome.stateT_pure_ok_iff.mp hout
          exact ⟨_, rfl, .record (fieldPatterns_fits given hms)⟩
      | sum alts =>
          match given, hrest with
          | [(name, sub)], hrest =>
            obtain ⟨⟨i, altTy⟩, t₂, hfield, hsub⟩ := Outcome.stateT_bind_ok_iff.mp hrest
            obtain ⟨payload, t₃, hpayload, hafter⟩ := Outcome.stateT_bind_ok_iff.mp hsub
            obtain ⟨index, t₄, hindex, hout⟩ := Outcome.stateT_bind_ok_iff.mp hafter
            obtain ⟨rfl, rfl⟩ := Outcome.stateT_pure_ok_iff.mp hout
            obtain ⟨rfl, alt, halt, rfl⟩ := gives_field _ _ _ _ _ hfield
            obtain ⟨rfl, hi⟩ := gives_altIndex _ _ _ hindex
            exact ⟨_, rfl, .alt halt hi (pattern_fits sub hpayload)⟩
          | [], hrest => exact (fail_ne_ok hrest).elim
          | _ :: _ :: _, hrest => exact (fail_ne_ok hrest).elim
      | _ => exact (fail_ne_ok hrest).elim
  | .tuple items, _, _, _, _, _, h => by
      rw [pattern] at h
      refine follow_fits (fun ps ty' t₁ hrest => ?_) h
      cases ty' with
      | record fields =>
          dsimp only at hrest
          split at hrest
          · obtain ⟨ms, t₂, hms, hout⟩ := Outcome.stateT_bind_ok_iff.mp hrest
            obtain ⟨rfl, rfl⟩ := Outcome.stateT_pure_ok_iff.mp hout
            exact ⟨_, rfl, .tuple (tuplePatterns_fits items ‹_› (fun j => by rw [Nat.zero_add]) hms)⟩
          · exact (fail_ne_ok hrest).elim
      | _ => exact (fail_ne_ok hrest).elim

theorem patterns_fits : (ps : List Pattern) → {path : List String} → {elem : Ty} →
    {t t' : Typing} → {ms : List Match} → c.patterns path elem ps t = .ok (ms, t') →
      c.FitsItems path elem ps t ms t'
  | [], _, _, _, _, _, h => by
      rw [patterns] at h
      obtain ⟨rfl, rfl⟩ := Outcome.stateT_pure_ok_iff.mp h
      exact .nil
  | p :: ps, _, _, _, _, _, h => by
      rw [patterns] at h
      obtain ⟨m, t₁, hm, hrest⟩ := Outcome.stateT_bind_ok_iff.mp h
      obtain ⟨ms, t₂, hms, hout⟩ := Outcome.stateT_bind_ok_iff.mp hrest
      obtain ⟨rfl, rfl⟩ := Outcome.stateT_pure_ok_iff.mp hout
      exact .cons (pattern_fits p hm) (patterns_fits ps hms)

theorem fieldPatterns_fits : (given : List (String × Pattern)) → {path : List String} →
    {fields : List Field} → {whole : Ty} → {t t' : Typing} → {ms : List (Nat × Match)} →
    c.fieldPatterns path fields whole given t = .ok (ms, t') →
      c.FitsFields path fields given t ms t'
  | [], _, _, _, _, _, _, h => by
      rw [fieldPatterns] at h
      obtain ⟨rfl, rfl⟩ := Outcome.stateT_pure_ok_iff.mp h
      exact .nil
  | (name, sub) :: rest, _, _, _, _, _, _, h => by
      rw [fieldPatterns] at h
      obtain ⟨⟨i, ty⟩, t₁, hfield, hsub⟩ := Outcome.stateT_bind_ok_iff.mp h
      obtain ⟨m, t₂, hm, hrest⟩ := Outcome.stateT_bind_ok_iff.mp hsub
      obtain ⟨ms, t₃, hms, hout⟩ := Outcome.stateT_bind_ok_iff.mp hrest
      obtain ⟨rfl, rfl⟩ := Outcome.stateT_pure_ok_iff.mp hout
      obtain ⟨rfl, f, hf, rfl⟩ := gives_field _ _ _ _ _ hfield
      exact .cons hf (pattern_fits sub hm) (fieldPatterns_fits rest hms)

/-- `all` are the fields of the record, of which those from index `i` on are still to come. -/
theorem tuplePatterns_fits : (items : List Pattern) → {path : List String} → {i : Nat} →
    {fields all : List Field} → {t t' : Typing} → {ms : List (Nat × Match)} →
    items.length = fields.length → (∀ j : Nat, all[i + j]? = fields[j]?) →
    c.tuplePatterns path i fields items t = .ok (ms, t') →
      c.FitsInOrder path all i items t ms t'
  | [], _, _, _, _, _, _, _, _, _, h => by
      rw [tuplePatterns] at h
      · obtain ⟨rfl, rfl⟩ := Outcome.stateT_pure_ok_iff.mp h
        exact .nil
      · simp
  | p :: ps, _, i, f :: fs, all, _, _, _, hlength, hat, h => by
      rw [tuplePatterns] at h
      obtain ⟨m, t₁, hm, hrest⟩ := Outcome.stateT_bind_ok_iff.mp h
      obtain ⟨ms, t₂, hms, hout⟩ := Outcome.stateT_bind_ok_iff.mp hrest
      obtain ⟨rfl, rfl⟩ := Outcome.stateT_pure_ok_iff.mp hout
      have hrest (j : Nat) : all[i + 1 + j]? = fs[j]? := by
        rw [Nat.add_assoc, Nat.add_comm 1, hat (j + 1), List.getElem?_cons_succ]
      exact .cons (hat 0) (pattern_fits p hm) (tuplePatterns_fits ps (Nat.succ.inj hlength) hrest hms)
end

/-! ## Sources and statements -/

/-- What a source supplies and yields, with what is known before and after it. A pattern that is
left out is one for everything. -/
inductive Draws (c : TypingContext) : Source → Typing → Supply → Outcome → Typing → Prop
  | factId (id : UInt64) {t : Typing} : Draws c (.factId id) t (.factId id) .anyFact t
  | expr {p : Pattern} {e : Expr} {ty : Ty} {t : Typing} (h : Expresses t p none e ty) :
      Draws c (.expr p) t (.expr e) (.ofTy ty) t
  | var {name : String} {value : Option Pattern} {e : Expr} {ty : Ty} {t : Typing}
      (hname : isVariable name = true) (h : Expresses t (.var name) none e ty) :
      Draws c (.predicate name none none value) t (.expr e) (.ofTy ty) t
  | length {name : String} {arg : Pattern} {e : Expr} {elem : Ty} {t : Typing}
      (hname : Prim.named? name = some .length) (h : Expresses t arg none e (.array elem)) :
      Draws c (.prim name arg) t (.prim .length e) (.value .nat) t
  | casing {name : String} {function : Prim} {arg : Pattern} {e : Expr} {ty : Ty} {t : Typing}
      (hname : Prim.named? name = some function) (hfunction : function ≠ .length)
      (h : Expresses t arg (some .string) e ty) :
      Draws c (.prim name arg) t (.prim function e) (.value .string) t
  | facts {name : String} {version : Option UInt32} {key value : Option Pattern} {d : Definition}
      {bodies : Bodies} {k v : Match} {t t₁ t' : Typing} (hresolve : c.resolve name version = .ok d)
      (henter : c.derive d t.bodies = .ok bodies)
      (hkey : c.Fits [] d.key (key.getD .wild) { t with bodies } k t₁)
      (hvalue : c.Fits [valueRoot] d.value (value.getD .wild) t₁ v t') :
      Draws c (.predicate name version key value) t (.facts d.predicate d.isDerived k v)
        (.fact d.predicate) t'

/-- The match of a pattern for what a source yields. -/
inductive Meets (c : TypingContext) : Pattern → Outcome → Typing → Match → Typing → Prop
  | anyFact {t : Typing} : Meets c .wild .anyFact t .wild t
  | fact {p : Pattern} {q : Predicate} {t t' : Typing} {m : Match}
      (h : c.Fits [] (.predicate q) p t m t') : Meets c p (.fact q) t m t'
  | value {p : Pattern} {ty : Ty} {t t' : Typing} {m : Match} (h : c.Fits [] ty p t m t') :
      Meets c p (.value ty) t m t'

/-- The match of a pattern that may be left out. -/
def optionalPattern (c : TypingContext) (path : List String) (ty : Ty) (p : Option Pattern) :
    Check Match :=
  match p with
  | some p => c.pattern path ty p
  | none => pure .wild

theorem optionalPattern_fits {path : List String} {ty : Ty} {p : Option Pattern} {m : Match}
    (h : c.optionalPattern path ty p t = .ok (m, t')) : c.Fits path ty (p.getD .wild) t m t' := by
  cases p with
  | some p => exact pattern_fits p h
  | none =>
      obtain ⟨rfl, rfl⟩ := Outcome.stateT_pure_ok_iff.mp h
      exact .wild

theorem facts_eq (d : Definition) (key value : Option Pattern) :
    c.facts d key value = (do
      c.enter d
      let k ← c.optionalPattern [] d.key key
      let v ← c.optionalPattern [valueRoot] d.value value
      return (.facts d.predicate d.isDerived k v, .fact d.predicate)) := by
  cases key <;> cases value <;> rfl

theorem facts_draws {name : String} {version : Option UInt32} {d : Definition}
    {key value : Option Pattern} {s : Supply} {o : Outcome} (hresolve : c.resolve name version = .ok d)
    (h : c.facts d key value t = .ok ((s, o), t')) :
    c.Draws (.predicate name version key value) t s o t' := by
  rw [facts_eq] at h
  obtain ⟨u, t₁, henter, hkey⟩ := Outcome.stateT_bind_ok_iff.mp h
  obtain ⟨k, t₂, hk, hvalue⟩ := Outcome.stateT_bind_ok_iff.mp hkey
  obtain ⟨v, t₃, hv, hout⟩ := Outcome.stateT_bind_ok_iff.mp hvalue
  obtain ⟨hpair, rfl⟩ := Outcome.stateT_pure_ok_iff.mp hout
  cases hpair
  obtain ⟨bodies, hderive, rfl⟩ := enter_ok_iff.mp henter
  exact .facts hresolve hderive (optionalPattern_fits hk) (optionalPattern_fits hv)

/-- What a function gives that is applied to an expression. -/
theorem prim_draws {name : String} {arg : Pattern} {s : Supply} {o : Outcome}
    (h : c.supply (.prim name arg) t = .ok ((s, o), t')) : c.Draws (.prim name arg) t s o t' := by
  unfold supply at h
  dsimp only at h
  cases hname : Prim.named? name with
  | none =>
      simp only [hname] at h
      exact (Outcome.stateT_throw_ok_iff.mp h).elim
  | some function =>
      simp only [hname] at h
      cases function with
      | length =>
          obtain ⟨⟨e, ty⟩, t₁, he, hout⟩ := Outcome.stateT_bind_ok_iff.mp h
          obtain ⟨rfl, hexpr⟩ := expr_expresses arg none _ _ he
          cases ty with
          | array elem =>
              obtain ⟨hpair, rfl⟩ := Outcome.stateT_pure_ok_iff.mp hout
              cases hpair
              exact .length hname hexpr
          | _ => exact (fail_ne_ok hout).elim
      | toLower | toUpper =>
          dsimp only at h
          obtain ⟨⟨e, ty⟩, t₁, he, hout⟩ := Outcome.stateT_bind_ok_iff.mp h
          obtain ⟨rfl, hexpr⟩ := expr_expresses arg (some .string) _ _ he
          obtain ⟨hpair, rfl⟩ := Outcome.stateT_pure_ok_iff.mp hout
          cases hpair
          exact .casing hname nofun hexpr

/-- What a source supplies, it supplies by the rules. -/
theorem supply_draws {source : Source} {s : Supply} {o : Outcome}
    (h : c.supply source t = .ok ((s, o), t')) : c.Draws source t s o t' := by
  cases source with
  | factId id =>
      obtain ⟨hpair, rfl⟩ := Outcome.stateT_pure_ok_iff.mp h
      cases hpair
      exact .factId id
  | expr p =>
      obtain ⟨⟨e, ty⟩, t₁, he, hout⟩ := Outcome.stateT_bind_ok_iff.mp h
      obtain ⟨rfl, hexpr⟩ := expr_expresses p none _ _ he
      obtain ⟨hpair, rfl⟩ := Outcome.stateT_pure_ok_iff.mp hout
      cases hpair
      exact .expr hexpr
  | prim name arg => exact prim_draws h
  | predicate name version key value =>
      unfold supply at h
      dsimp only at h
      obtain ⟨t₁, t₂, hget, hrest⟩ := Outcome.stateT_bind_ok_iff.mp h
      obtain ⟨rfl, rfl⟩ := Outcome.stateT_get_ok_iff.mp hget
      split at hrest
      · rename_i hknown
        obtain ⟨hkey, hversion, hname⟩ : key = none ∧ version = none ∧ isVariable name = true := by
          simp only [Bool.and_eq_true, Option.isNone_iff_eq_none] at hknown
          exact ⟨hknown.1.1.1, hknown.1.1.2, hknown.1.2⟩
        subst hkey hversion
        obtain ⟨⟨e, ty⟩, t₁, he, hout⟩ := Outcome.stateT_bind_ok_iff.mp hrest
        obtain ⟨rfl, hexpr⟩ := expr_expresses _ none _ _ he
        obtain ⟨hpair, rfl⟩ := Outcome.stateT_pure_ok_iff.mp hout
        cases hpair
        exact .var hname hexpr
      · cases hresolve : c.resolve name version with
        | ok d =>
            simp only [hresolve] at hrest
            exact facts_draws hresolve hrest
        | error e =>
            simp only [hresolve] at hrest
            cases e <;> dsimp only at hrest <;> try split at hrest
            all_goals exact (Outcome.stateT_throw_ok_iff.mp hrest).elim

/-- What the pattern of a statement matches, it matches by the rules. -/
theorem binding_meets {bind : Option Pattern} {o : Outcome} {m : Match}
    (h : c.binding bind o t = .ok (m, t')) : c.Meets (bind.getD .wild) o t m t' := by
  have hwild : m = .wild → t' = t → c.Meets .wild o t m t' := by
    rintro rfl rfl
    cases o
    exacts [.fact .wild, .anyFact, .value .wild]
  unfold binding at h
  split at h
  · obtain ⟨hm, ht⟩ := Outcome.stateT_pure_ok_iff.mp h
    exact hwild hm.symm ht.symm
  · obtain ⟨hm, ht⟩ := Outcome.stateT_pure_ok_iff.mp h
    exact hwild hm.symm ht.symm
  · exact (fail_ne_ok h).elim
  · exact .fact (pattern_fits _ h)
  · exact .value (pattern_fits _ h)

/-- What the stages of statements come from: the supply and the pattern of the first, and the
statements after it. -/
theorem stages_cons {more : Bool} {first o : Outcome} {s : Statement} {ss : List Statement}
    {stages : List Stage} (h : c.stages more first (s :: ss) t = .ok ((stages, o), t')) :
    ∃ supply o₁ t₁ bind t₂ rest, c.supply s.source t = .ok ((supply, o₁), t₁) ∧
      c.binding s.bind o₁ t₁ = .ok (bind, t₂) ∧ c.stages more o₁ ss t₂ = .ok ((rest, o), t') ∧
      stages = ⟨supply, bind⟩ :: rest := by
  unfold TypingContext.stages at h
  obtain ⟨⟨supply, o₁⟩, t₁, hsupply, h⟩ := Outcome.stateT_bind_ok_iff.mp h
  -- a fact by its id is refused unless it is the last source
  have hrest : (do
      let bind ← c.binding s.bind o₁
      let rest ← c.stages more o₁ ss
      return (⟨supply, bind⟩ :: rest.1, rest.2) : Check (List Stage × Outcome)) t₁ =
      .ok ((stages, o), t') := by
    dsimp only at h
    cases supply with
    | factId id =>
        dsimp only at h
        split at h
        · obtain ⟨u, t₂, hfail, -⟩ := Outcome.stateT_bind_ok_iff.mp h
          exact (fail_ne_ok hfail).elim
        · exact h
    | _ => exact h
  obtain ⟨bind, t₂, hbind, hrest⟩ := Outcome.stateT_bind_ok_iff.mp hrest
  obtain ⟨⟨rest, o₂⟩, t₃, hstages, hrest⟩ := Outcome.stateT_bind_ok_iff.mp hrest
  obtain ⟨hout, rfl⟩ := Outcome.stateT_pure_ok_iff.mp hrest
  cases hout
  exact ⟨supply, o₁, t₁, bind, t₂, rest, hsupply, hbind, hstages, rfl⟩

/-- A body has the stages of its statements, and after them one for the head where there is one. -/
theorem body_cases {q : Query} {head : Option (Pattern × Ty)} {bodies bodies' : Bodies} {b : Body}
    (h : c.body q head bodies = .ok (b, bodies')) :
    ∃ stages o t,
      c.stages head.isSome (.value .unit) q.statements ⟨[], ∅, bodies⟩ = .ok ((stages, o), t) ∧
      t.bodies = bodies' ∧
      (head = none ∧ b = ⟨t.vars, stages, o, t.noExpand⟩ ∨
        ∃ p ty e found, head = some (p, ty) ∧ Expresses t p (some ty) e found ∧
          b = ⟨t.vars, stages ++ [⟨.expr e, .wild⟩], .ofTy ty, t.noExpand⟩) := by
  unfold body at h
  dsimp only at h
  obtain ⟨⟨⟨stages, o⟩, t⟩, hrun, hout⟩ := Outcome.bind_ok_iff.mp h
  cases hout
  obtain ⟨⟨stages₁, o₁⟩, t₁, hstages, hrest⟩ := Outcome.stateT_bind_ok_iff.mp hrun
  cases head with
  | none =>
      obtain ⟨hpair, rfl⟩ := Outcome.stateT_pure_ok_iff.mp hrest
      cases hpair
      exact ⟨_, _, _, hstages, rfl, .inl ⟨rfl, rfl⟩⟩
  | some head =>
      obtain ⟨p, ty⟩ := head
      obtain ⟨⟨e, found⟩, t₂, he, hlast⟩ := Outcome.stateT_bind_ok_iff.mp hrest
      obtain ⟨rfl, hexpr⟩ := expr_expresses p (some ty) _ _ he
      obtain ⟨hpair, rfl⟩ := Outcome.stateT_pure_ok_iff.mp hlast
      cases hpair
      exact ⟨_, _, _, hstages, rfl, .inr ⟨p, ty, e, found, rfl, hexpr, rfl⟩⟩

/-- The body that statements are, without a head. -/
theorem body_none_iff {ss : List Statement} {bodies bodies' : Bodies} {b : Body} :
    c.body ⟨ss⟩ none bodies = .ok (b, bodies') ↔
      ∃ stages o t, c.stages false (.value .unit) ss ⟨[], ∅, bodies⟩ = .ok ((stages, o), t) ∧
        b = ⟨t.vars, stages, o, t.noExpand⟩ ∧ bodies' = t.bodies := by
  constructor
  · intro h
    obtain ⟨stages, o, t, hstages, hbodies, ⟨-, hb⟩ | ⟨_, _, _, _, hhead, -⟩⟩ := body_cases h
    · exact ⟨stages, o, t, hstages, hb, hbodies.symm⟩
    · cases hhead
  · rintro ⟨stages, o, t, hstages, rfl, rfl⟩
    exact Outcome.bind_ok_iff.mpr
      ⟨_, Outcome.stateT_bind_ok_iff.mpr ⟨_, t, hstages, rfl⟩, rfl⟩

end TypingContext

end Factbase
