import Factbase.Proofs.Query.Typed
import Factbase.Query.Compile
import Mathlib.Data.List.Nodup

/-!
# Occurrences of variables

Where the variables of a body occur, in the order in which the body is
evaluated: stage by stage, the match for the key before the one for the
value, either or the expression before the match of the candidates, and
each of them from left to right. This is also the order in which the
compiler looks for variables (`Stage.ReadAll.follow`).

An occurrence has the type of its place, which comes from the schema: the
type of a key, of a field, of an item. A match or an expression alone has
none, so what a stage yields is read along with it (`Stage.Reads`).

In a body that is in order, each occurrence in turn either takes the next
number for a new variable of the type of the place, or is of a variable
that is there, and of a compatible type (`Scoped`). So a variable is bound
once, and before all its other occurrences.
-/

namespace Factbase

/-- An occurrence of a variable in a body. Either the variable takes its value here, or the
value that it has is used. -/
structure Occurrence where
  number : Nat
  binds : Bool
  /-- The type of the values at this place, where the parts of the body around it have the
  shapes of their types. -/
  place : Option Ty
deriving DecidableEq

namespace Ty

/-- The type of the items at a place for arrays. -/
def itemAt : Option Ty → Option Ty
  | some (.array elem) => some elem
  | _ => none

/-- The fields at a place for records. -/
def fieldsAt : Option Ty → List Field
  | some (.record fields) => fields
  | _ => []

/-- The alternatives at a place for sums. -/
def alternativesAt : Option Ty → List Field
  | some (.sum alts) => alts
  | _ => []

end Ty

/-! ## Matches and expressions -/

mutual
/-- The occurrences of variables in a match at a place. What stands behind a reference is at
the place of the key of the predicate. -/
def Match.occurrences (s : Schema) : Match → Option Ty → List Occurrence
  | .bind v, ty => [⟨v, true, ty⟩]
  | .same v, ty => [⟨v, false, ty⟩]
  | .array items, ty => Match.occurrencesAll s items (Ty.itemAt ty)
  | .record _ fields, ty => Match.occurrencesFields s fields (Ty.fieldsAt ty)
  | .alt index payload, ty =>
    payload.occurrences s ((Ty.alternativesAt ty)[index.toNat]?.map (·.ty))
  | .deref p key, _ => key.occurrences s ((s.get? p).map (·.key))
  | .wild, _ | .lit _, _ | .stringStart _, _ => []

def Match.occurrencesAll (s : Schema) : List Match → Option Ty → List Occurrence
  | [], _ => []
  | m :: ms, elem => m.occurrences s elem ++ Match.occurrencesAll s ms elem

def Match.occurrencesFields (s : Schema) : List (Nat × Match) → List Field → List Occurrence
  | [], _ => []
  | (i, m) :: ms, fields =>
    m.occurrences s (fields[i]?.map (·.ty)) ++ Match.occurrencesFields s ms fields
end

mutual
/-- The occurrences of variables in an expression at a place. -/
def Expr.occurrences : Expr → Option Ty → List Occurrence
  | .lit _, _ => []
  | .var v, ty => [⟨v, false, ty⟩]
  | .array items, ty => Expr.occurrencesAll items (Ty.itemAt ty)
  | .record es, ty => Expr.occurrencesFields es (Ty.fieldsAt ty)
  | .alt index payload, ty =>
    payload.occurrences ((Ty.alternativesAt ty)[index.toNat]?.map (·.ty))

def Expr.occurrencesAll : List Expr → Option Ty → List Occurrence
  | [], _ => []
  | e :: es, elem => e.occurrences elem ++ Expr.occurrencesAll es elem

def Expr.occurrencesFields : List Expr → List Field → List Occurrence
  | [], _ => []
  | e :: es, fields =>
    e.occurrences (fields.head?.map (·.ty)) ++ Expr.occurrencesFields es fields.tail
end

/-! ## Stages and bodies -/

/-- The place for what a source yields. -/
def Outcome.place : Outcome → Option Ty
  | .fact p => some (.predicate p)
  | .anyFact => none
  | .value ty => some ty

/-- The occurrences of variables in a supply of candidates of some kind. The places in key and value
are those of a definition of the predicate, of which a registered schema has just one. -/
def Supply.Reads (s : Schema) (supply : Supply) (o : Outcome) (os : List Occurrence) : Prop :=
  match supply with
  | .facts p _ key value =>
    o = .fact p ∧ ∃ d ∈ s.predicates.values, d.predicate = p ∧
      os = key.occurrences s (some d.key) ++ value.occurrences s (some d.value)
  | .factId _ => o = .anyFact ∧ os = []
  | .prim f arg => o = .value f.gives ∧ ∃ ty, f.Takes ty ∧ os = arg.occurrences (some ty)
  | .expr e => ∃ ty, o = .ofTy ty ∧ os = e.occurrences (some ty)

/-- The occurrences of variables in a stage that yields candidates of some kind. -/
def Stage.Reads (s : Schema) (stage : Stage) (o : Outcome) (os : List Occurrence) : Prop :=
  ∃ drawn, stage.supply.Reads s o drawn ∧ os = drawn ++ stage.bind.occurrences s o.place

/-- The occurrences of variables in stages in turn, the last of which yields candidates of some
kind; `first` is what they yield where there are none. -/
def Stage.ReadAll (s : Schema) (first : Outcome) : List Stage → Outcome → List Occurrence → Prop
  | [], o, os => o = first ∧ os = []
  | stage :: rest, o, os => ∃ o' here there,
    stage.Reads s o' here ∧ Stage.ReadAll s o' rest o there ∧ os = here ++ there

/-- The occurrences of variables in a body. -/
def Body.Reads (s : Schema) (b : Body) (os : List Occurrence) : Prop :=
  Stage.ReadAll s (.value .unit) b.stages b.outcome os

theorem Stage.ReadAll.append {s : Schema} {first o o' : Outcome} {ss ss' : List Stage}
    {os os' : List Occurrence} (h : Stage.ReadAll s first ss o os)
    (h' : Stage.ReadAll s o ss' o' os') : Stage.ReadAll s first (ss ++ ss') o' (os ++ os') := by
  induction ss generalizing first os with
  | nil =>
      obtain ⟨rfl, rfl⟩ := h
      exact h'
  | cons stage ss ih =>
      obtain ⟨o₁, here, there, hstage, hrest, rfl⟩ := h
      exact ⟨o₁, here, there ++ os', hstage, ih hrest, List.append_assoc ..⟩

/-! ## The order of the compiler -/

/-- Occurrences of the variables that are mentioned and of those that are bound, each in order. -/
structure Occurrence.Follow (os : List Occurrence) (mentioned bound : List Nat) : Prop where
  mentioned : os.map (·.number) = mentioned
  bound : (os.filter (·.binds)).map (·.number) = bound

namespace Occurrence.Follow

variable {os os' : List Occurrence} {ms ms' bs bs' : List Nat}

theorem nil : Follow [] [] [] := ⟨rfl, rfl⟩

theorem append (h : Follow os ms bs) (h' : Follow os' ms' bs') :
    Follow (os ++ os') (ms ++ ms') (bs ++ bs') where
  mentioned := by rw [List.map_append, h.mentioned, h'.mentioned]
  bound := by rw [List.filter_append, List.map_append, h.bound, h'.bound]

end Occurrence.Follow

open Occurrence

mutual
theorem Match.occurrences_follow (s : Schema) : (m : Match) → (ty : Option Ty) →
    Follow (m.occurrences s ty) m.mentions m.binds
  | .wild, _ | .lit _, _ | .stringStart _, _ | .bind _, _ | .same _, _ => by
      rw [occurrences, mentions, binds]
      exact ⟨rfl, rfl⟩
  | .array items, _ => by
      rw [occurrences, mentions, binds]
      exact Match.occurrencesAll_follow s items _
  | .record _ fields, _ => by
      rw [occurrences, mentions, binds]
      exact Match.occurrencesFields_follow s fields _
  | .alt _ payload, _ => by
      rw [occurrences, mentions, binds]
      exact Match.occurrences_follow s payload _
  | .deref _ key, _ => by
      rw [occurrences, mentions, binds]
      exact Match.occurrences_follow s key _

theorem Match.occurrencesAll_follow (s : Schema) : (ms : List Match) → (elem : Option Ty) →
    Follow (Match.occurrencesAll s ms elem) (Match.mentionsAll ms) (Match.bindsAll ms)
  | [], _ => .nil
  | m :: ms, elem => by
      rw [occurrencesAll, mentionsAll, bindsAll]
      exact (Match.occurrences_follow s m _).append (Match.occurrencesAll_follow s ms _)

theorem Match.occurrencesFields_follow (s : Schema) : (ms : List (Nat × Match)) →
    (fields : List Field) →
    Follow (Match.occurrencesFields s ms fields) (Match.mentionsFields ms) (Match.bindsFields ms)
  | [], _ => .nil
  | (_, m) :: ms, fields => by
      rw [occurrencesFields, mentionsFields, bindsFields]
      exact (Match.occurrences_follow s m _).append (Match.occurrencesFields_follow s ms _)
end

mutual
theorem Expr.occurrences_follow : (e : Expr) → (ty : Option Ty) →
    Follow (e.occurrences ty) e.mentions []
  | .lit _, _ | .var _, _ => by
      rw [occurrences, mentions]
      exact ⟨rfl, rfl⟩
  | .array items, _ => by
      rw [occurrences, mentions]
      exact Expr.occurrencesAll_follow items _
  | .record es, _ => by
      rw [occurrences, mentions]
      exact Expr.occurrencesFields_follow es _
  | .alt _ payload, _ => by
      rw [occurrences, mentions]
      exact Expr.occurrences_follow payload _

theorem Expr.occurrencesAll_follow : (es : List Expr) → (elem : Option Ty) →
    Follow (Expr.occurrencesAll es elem) (Expr.mentionsAll es) []
  | [], _ => .nil
  | e :: es, elem => by
      rw [occurrencesAll, mentionsAll]
      exact (Expr.occurrences_follow e _).append (Expr.occurrencesAll_follow es _)

theorem Expr.occurrencesFields_follow : (es : List Expr) → (fields : List Field) →
    Follow (Expr.occurrencesFields es fields) (Expr.mentionsAll es) []
  | [], _ => .nil
  | e :: es, fields => by
      rw [occurrencesFields, mentionsAll]
      exact (Expr.occurrences_follow e _).append (Expr.occurrencesFields_follow es _)
end

/-- The occurrences in a stage are those that the compiler meets, in its order. -/
theorem Stage.Reads.follow {s : Schema} {stage : Stage} {o : Outcome} {os : List Occurrence}
    (h : stage.Reads s o os) : Follow os stage.mentions stage.binds := by
  obtain ⟨drawn, hdrawn, rfl⟩ := h
  obtain ⟨supply, bind⟩ := stage
  have hbind := bind.occurrences_follow s o.place
  cases supply with
  | facts p derived key value =>
      obtain ⟨-, d, -, -, rfl⟩ := hdrawn
      exact ((key.occurrences_follow s _).append (value.occurrences_follow s _)).append hbind
  | factId id =>
      obtain ⟨-, rfl⟩ := hdrawn
      exact hbind
  | prim f arg =>
      obtain ⟨-, ty, -, rfl⟩ := hdrawn
      exact (arg.occurrences_follow _).append hbind
  | expr e =>
      obtain ⟨ty, -, rfl⟩ := hdrawn
      exact (e.occurrences_follow _).append hbind

theorem Stage.ReadAll.follow {s : Schema} {first o : Outcome} {ss : List Stage}
    {os : List Occurrence} (h : Stage.ReadAll s first ss o os) :
    Follow os (ss.flatMap Stage.mentions) (ss.flatMap Stage.binds) := by
  induction ss generalizing first os with
  | nil =>
      obtain ⟨-, rfl⟩ := h
      exact .nil
  | cons stage ss ih =>
      obtain ⟨o', here, there, hstage, hrest, rfl⟩ := h
      rw [List.flatMap_cons, List.flatMap_cons]
      exact hstage.follow.append (ih hrest)

/-! ## Occurrences in order -/

/-- Occurrences that lead from the variables that have values to those that have values after
them: in turn each is of the next variable, which takes a value of the type of the place, or of
one that has a value, of a compatible type. -/
inductive Scoped : List Variable → List Occurrence → List Variable → Prop
  | nil (vars : List Variable) : Scoped vars [] vars
  | bind {vars vars' : List Variable} {os : List Occurrence} (x : Variable) :
    Scoped (vars ++ [x]) os vars' → Scoped vars (⟨vars.length, true, some x.ty⟩ :: os) vars'
  | use {vars vars' : List Variable} {os : List Occurrence} {v : Nat} {x : Variable} {ty : Ty} :
    vars[v]? = some x → x.ty.compatible ty = true → Scoped vars os vars' →
    Scoped vars (⟨v, false, some ty⟩ :: os) vars'

/-- An occurrence of a variable that has a value, at a place of a compatible type. -/
def Occurrence.Used (vars : List Variable) (o : Occurrence) : Prop :=
  o.binds = false ∧ ∃ x ty, vars[o.number]? = some x ∧ o.place = some ty ∧ x.ty.compatible ty = true

namespace Scoped

variable {vars vars₁ vars' : List Variable} {os os' : List Occurrence}

theorem append (h : Scoped vars os vars₁) (h' : Scoped vars₁ os' vars') :
    Scoped vars (os ++ os') vars' := by
  induction h with
  | nil => exact h'
  | bind x _ ih => exact .bind x (ih h')
  | use hx hcompatible _ ih => exact .use hx hcompatible (ih h')

/-- Where variables are only used, they stay as they are. -/
theorem of_used (h : ∀ o ∈ os, o.Used vars) : Scoped vars os vars := by
  induction os with
  | nil => exact .nil vars
  | cons o os ih =>
      obtain ⟨⟨hbinds, x, ty, hx, hplace, hcompatible⟩, hrest⟩ := List.forall_mem_cons.mp h
      obtain ⟨v, _, _⟩ := o
      cases hbinds
      cases hplace
      exact .use hx hcompatible (ih hrest)

theorem isPrefix (h : Scoped vars os vars') : vars <+: vars' := by
  induction h with
  | nil => exact List.prefix_rfl
  | bind x _ ih => exact (List.prefix_append ..).trans ih
  | use _ _ _ ih => exact ih

/-- The new variables are bound in the order of their numbers. -/
theorem bound_eq (h : Scoped vars os vars') :
    vars.length + ((os.filter (·.binds)).map (·.number)).length = vars'.length ∧
      (os.filter (·.binds)).map (·.number) =
        List.range' vars.length ((os.filter (·.binds)).map (·.number)).length := by
  induction h with
  | nil => exact ⟨rfl, rfl⟩
  | @bind vars vars' os x _ ih =>
      obtain ⟨hlength, heq⟩ := ih
      rw [List.length_append, List.length_singleton] at hlength heq
      rw [List.filter_cons_of_pos rfl, List.map_cons, List.length_cons, List.range'_succ, ← heq]
      exact ⟨by omega, rfl⟩
  | use _ _ _ ih =>
      rw [List.filter_cons_of_neg (by simp)]
      exact ih

/-- A variable that has no value before takes one at exactly one occurrence. -/
theorem count_eq_one (h : Scoped vars os vars') {v : Nat} (hv : vars.length ≤ v)
    (hv' : v < vars'.length) : os.countP (fun o => o.binds && o.number == v) = 1 := by
  obtain ⟨hlength, heq⟩ := h.bound_eq
  have hcount : ((os.filter (·.binds)).map (·.number)).count v = 1 := by
    rw [heq]
    exact List.count_eq_one_of_mem (List.nodup_range' ..) (List.mem_range'_1.mpr (by omega))
  rw [List.count, List.countP_map, List.countP_filter] at hcount
  rw [← hcount]
  exact List.countP_congr fun o _ => by simp [and_comm]

/-- A variable is used where it had a value from the start or has taken it before. -/
theorem bound_before (h : Scoped vars os vars') {before after : List Occurrence} {o : Occurrence}
    (hos : os = before ++ o :: after) (ho : o.binds = false) :
    o.number < vars.length ∨ ∃ o' ∈ before, o'.binds = true ∧ o'.number = o.number := by
  induction h generalizing before with
  | nil => exact absurd hos (by simp)
  | @bind vars vars' os x _ ih =>
      cases before with
      | nil =>
          cases hos
          cases ho
      | cons o₁ before =>
          obtain ⟨rfl, htail⟩ := List.cons.inj hos
          rcases ih htail with hlt | ⟨o', ho', hfirst⟩
          · rw [List.length_append, List.length_singleton] at hlt
            by_cases heq : o.number = vars.length
            · exact .inr ⟨_, List.mem_cons_self .., rfl, heq.symm⟩
            · exact .inl (by omega)
          · exact .inr ⟨o', List.mem_cons_of_mem _ ho', hfirst⟩
  | @use vars vars' os v x ty hx _ _ ih =>
      cases before with
      | nil =>
          cases hos
          exact .inl (List.getElem?_eq_some_iff.mp hx).1
      | cons o₁ before =>
          obtain ⟨rfl, htail⟩ := List.cons.inj hos
          exact (ih htail).imp_right fun ⟨o', ho', hfirst⟩ => ⟨o', List.mem_cons_of_mem _ ho', hfirst⟩

/-- The type of a variable is compatible with that of each place where it occurs. -/
theorem compatible (h : Scoped vars os vars') {o : Occurrence} (ho : o ∈ os) :
    ∃ x ty, vars'[o.number]? = some x ∧ o.place = some ty ∧ x.ty.compatible ty = true := by
  induction h with
  | nil => cases ho
  | @bind vars vars' os x hrest ih =>
      rcases List.mem_cons.mp ho with rfl | ho
      · obtain ⟨more, rfl⟩ := hrest.isPrefix
        exact ⟨x, x.ty, by simp, rfl, Ty.compatible_refl _⟩
      · exact ih ho
  | @use vars vars' os v x ty hx hcompatible hrest ih =>
      rcases List.mem_cons.mp ho with rfl | ho
      · obtain ⟨more, rfl⟩ := hrest.isPrefix
        exact ⟨x, ty, (List.getElem?_append_left (List.getElem?_eq_some_iff.mp hx).1).trans hx, rfl,
          hcompatible⟩
      · exact ih ho

end Scoped

/-- A body in which variables are in order: their occurrences lead from none to all that it has. -/
def Body.Scoped (s : Schema) (b : Body) : Prop := ∃ os, b.Reads s os ∧ Factbase.Scoped [] os b.vars

namespace Bodies

/-- Bodies in which variables are in order. -/
def Scoped (s : Schema) (bodies : Bodies) : Prop := ∀ p b, bodies.get? p = some b → b.Scoped s

theorem Scoped.insert {s : Schema} {bodies : Bodies} {p : Predicate} {b : Body}
    (h : bodies.Scoped s) (hb : b.Scoped s) : Bodies.Scoped s (SortedMap.insert bodies p b) := by
  intro q b' hb'
  rw [SortedMap.get?_insert] at hb'
  split at hb'
  · cases hb'
    exact hb
  · exact h q b' hb'

end Bodies

end Factbase
