import Factbase.Query.Machine
import Mathlib.Data.Option.Basic

/-!
# What a plan means

The direct meaning of a plan, without code, registers or sinks. A stage
takes each environment that it is given in turn and draws the candidates
of its supply in order; a candidate is kept where it matches, and extends
the environment by what the match binds. The last stage gives values, and
of equal ones the first is kept.

Matching can fail in two ways: a value may not match, and a fact that has
to be read may not be readable, which ends everything. So matches are
computations in `OptionT (Except Error)`.

The facts of a derived predicate are computed when a stage first draws
from them, and are given ids above those of the store. These may run out,
and then a plan has no meaning (`Halt.outOfIds`).
-/

namespace Factbase

/-! ## Environments -/

/-- The values of variables, where they have one. -/
abbrev Env := Nat → Option Value

namespace Env

/-- No variable has a value. -/
def empty : Env := fun _ => none

/-- The environment with the value of one more variable. -/
def bind (env : Env) (v : Nat) (x : Value) : Env := fun w => if w = v then some x else env w

end Env

/-- A computation that may find nothing, or fail. -/
abbrev Attempt (α : Type) := OptionT (Except Error) α

namespace Attempt

variable {p : Prop} [Decidable p]

theorem guard_pos (h : p) : (guard p : Attempt Unit) = pure () := if_pos h

theorem guard_neg (h : ¬ p) : (guard p : Attempt Unit) = failure := if_neg h

end Attempt

/-- How facts are read: by id, as facts of a predicate. -/
abbrev Look := FactId → Predicate → Attempt Fact

/-! ## Matches and expressions -/

mutual
/-- The environment after a value has been matched. -/
def Match.against (look : Look) (m : Match) (x : Value) (env : Env) : Attempt Env :=
  match m, x with
  | .wild, _ => return env
  | .bind v, x => return env.bind v x
  | .same v, x => do
    guard (env v = some x)
    return env
  | .lit value, x => do
    guard (x = value)
    return env
  | .stringStart start, .string s => do
    guard (start.toList.isPrefixOf s.toList)
    return env
  | .array items, .array xs => do
    guard (xs.length = items.length)
    Match.againstAll look items xs env
  | .record arity fields, .record xs => do
    guard (xs.length = arity)
    Match.againstFields look fields xs env
  | .alt index payload, .alt i x => do
    guard (i = index)
    payload.against look x env
  | .deref p key, .fact id => do
    let f ← look id p
    key.against look f.key env
  | _, _ => failure

/-- The environment after items have been matched one by one. -/
def Match.againstAll (look : Look) (ms : List Match) (xs : List Value) (env : Env) : Attempt Env :=
  match ms, xs with
  | m :: ms, x :: xs => do
    let env ← m.against look x env
    Match.againstAll look ms xs env
  | _, _ => return env

/-- The environment after fields, given by index, have been matched. -/
def Match.againstFields (look : Look) (ms : List (Nat × Match)) (xs : List Value) (env : Env) :
    Attempt Env :=
  match ms with
  | [] => return env
  | (i, m) :: ms =>
    match xs[i]? with
    | some x => do
      let env ← m.against look x env
      Match.againstFields look ms xs env
    | none => failure
end

mutual
/-- The value of an expression, where its variables have values. -/
def Expr.eval (env : Env) : Expr → Option Value
  | .lit value => some value
  | .var v => env v
  | .array items => (Expr.evalAll env items).map .array
  | .record fields => (Expr.evalAll env fields).map .record
  | .alt index payload => (payload.eval env).map (.alt index)

def Expr.evalAll (env : Env) : List Expr → Option (List Value)
  | [] => some []
  | e :: es => do return (← e.eval env) :: (← Expr.evalAll env es)
end

/-! ## Candidates -/

/-- What a supply draws: a fact, which is still to be read, or a value. -/
inductive Candidate where
  | fact (id : FactId)
  | value (v : Value)

variable {σ : Type} [FactStore σ]

/-- The other stored facts of the predicate and with the key of a stored fact, in
ascending order. -/
def Reading.siblings (r : Reading σ) (f : Fact) : List FactId :=
  (FactStore.ids r.store).filter fun id =>
    id ≠ f.id ∧ ∃ g, FactStore.lookup r.store id = some g ∧ g.predicate = f.predicate ∧ g.key = f.key

/-- What a supply draws in an environment, in order. `known` are the facts of the derived
predicate that it draws from. Facts can be found by their key only if it is known how
all versions of them are read. -/
def Supply.candidates (r : Reading σ) (overlay : Overlay) (known : List FactId) (s : Supply)
    (env : Env) : Except Error (List Candidate) :=
  match s with
  | .facts _ true _ _ => return known.map .fact
  | .facts p false key _ => do
    if key.expr?.isSome then r.prepare p
    return (FactStore.ids r.store).map .fact
  | .factId id =>
    if (overlay.get? ⟨id⟩).isSome then return [.fact ⟨id⟩]
    else
      match FactStore.lookup r.store ⟨id⟩ with
      | some f => return (⟨id⟩ :: r.siblings f).map .fact
      | none => throw (.notFound (.fact ⟨id⟩))
  | .prim function arg =>
    match arg.eval env with
    | some v => do return [.value (← orTypeError (function.apply v))]
    | none => return []
  | .expr e => return (e.eval env).toList.map .value

/-- The fact that a candidate is. -/
def Supply.fetch (r : Reading σ) (overlay : Overlay) (s : Supply) (id : FactId) : Attempt Fact :=
  match s with
  | .facts _ true _ _ => OptionT.mk (return overlay.get? id)
  | .facts p false _ _ => r.read overlay id p
  | .factId _ | .prim _ _ | .expr _ => r.readAny overlay id

/-- Test the key of a fact. Where there is only one key that matches, the key must be that
one. -/
def Match.onKey (look : Look) (derived : Bool) (key : Match) (f : Fact) (env : Env) : Attempt Env :=
  match derived, key.expr? with
  | false, some e => do
    guard (e.eval env = some f.key)
    return env
  | _, _ => key.against look f.key env

/-- The environment after the key and the value of a fact have been tested. -/
def Supply.onFact (look : Look) (s : Supply) (f : Fact) (env : Env) : Attempt Env :=
  match s with
  | .facts _ derived key value => do
    let env ← key.onKey look derived f env
    value.against look f.value env
  | .factId _ | .prim _ _ | .expr _ => return env

/-- What a candidate stands for, and the environment that it leads to, if it is kept. -/
def Stage.attempt (r : Reading σ) (overlay : Overlay) (s : Stage) (env : Env) (c : Candidate) :
    Attempt (Value × Env) := do
  let look : Look := r.read overlay
  let (v, env) ← match c with
    | .value v => pure (v, env)
    | .fact id => do
      let f ← s.supply.fetch r overlay id
      let env ← s.supply.onFact look f env
      pure (.fact f.id, env)
  let env ← s.bind.against look v env
  return (v, env)

/-- What a stage keeps in an environment, in order. -/
def Stage.kept (r : Reading σ) (overlay : Overlay) (known : List FactId) (s : Stage) (env : Env) :
    Except Error (List (Value × Env)) := do
  let candidates ← s.supply.candidates r overlay known env
  candidates.filterMapM fun c => (s.attempt r overlay env c).run

/-! ## Derived facts -/

/-- The derived facts there are. -/
structure World where
  derived : SortedMap Predicate (List FactId)
  overlay : Overlay
  /-- The id of the next derived fact. -/
  next : FactId

/-- Why a plan yields no values. -/
inductive Halt where
  | failed (e : Error)
  /-- There is no id left for a derived fact. -/
  | outOfIds

/-- A computation in which facts may be derived. -/
abbrev Course (α : Type) := StateT World (Except Halt) α

namespace Course

def fail {α : Type} (e : Error) : Course α := throw (.failed e)

/-- What a computation that derives nothing gives. -/
def of {α : Type} (x : Except Error α) : Course α :=
  match x with
  | .ok a => pure a
  | .error e => fail e

end Course

/-- A new fact of a derived predicate. The largest id is not given out. -/
def World.derive (p : Predicate) (key : Value) : Course FactId := fun w =>
  if w.next.next = w.next then .error .outOfIds
  else .ok (w.next, { w with
    next := w.next.next
    overlay := w.overlay.insert w.next ⟨w.next, p, key, .unit⟩ })

/-- The derived facts that a supply draws from. -/
def Supply.known (derive : Predicate → Course (List FactId)) (s : Supply) : Course (List FactId) :=
  match s with
  | .facts p true _ _ => derive p
  | .facts _ false _ _ | .factId _ | .prim _ _ | .expr _ => return []

/-- What a stage keeps in environments, taken in turn. -/
def Stage.run (r : Reading σ) (derive : Predicate → Course (List FactId)) (s : Stage)
    (envs : List Env) : Course (List (Value × Env)) :=
  if envs.isEmpty then return []
  else do
    let known ← s.supply.known derive
    let w ← get
    let kept ← Course.of (envs.mapM (s.kept r w.overlay known))
    return kept.flatten

/-- The values that the last of some stages gives. -/
def Stage.runAll (r : Reading σ) (derive : Predicate → Course (List FactId)) :
    List Stage → List Env → Course (List Value)
  | [], _ => return []
  | [s], envs => do return (← s.run r derive envs).map (·.1)
  | s :: rest, envs => do
    let kept ← s.run r derive envs
    Stage.runAll r derive rest (kept.map (·.2))

/-- The values of a body, each once. -/
def Body.meaning (b : Body) (r : Reading σ) (derive : Predicate → Course (List FactId)) :
    Course (List Value) := do
  return (← Stage.runAll r derive b.stages [.empty]).eraseDups

/-- The facts of a derived predicate: those there are, or else one for each value of its
body. Derived predicates use one another to a depth of at most `fuel`. -/
def Bodies.derive (r : Reading σ) (bodies : Bodies) (fuel : Nat) (p : Predicate) :
    Course (List FactId) := do
  match (← get).derived.get? p with
  | some ids => return ids
  | none =>
    if FactStore.state r.store ≠ .complete then Course.fail (.incomplete (.derivation p))
    else
      match SortedMap.get? bodies p, fuel with
      | none, _ | _, 0 => Course.fail (.type (.noDerivation p))
      | some b, fuel + 1 =>
        let keys ← b.meaning r (Bodies.derive r bodies fuel)
        let ids ← keys.mapM (World.derive p)
        modify fun w => { w with derived := w.derived.insert p ids }
        return ids

/-- The values of a plan, while there are derived facts already. -/
def Plan.values (p : Plan) (r : Reading σ) : Course (List Value) :=
  p.main.meaning r (Bodies.derive r p.derived p.derived.size)

/-- What a plan means: the list of its values, or how it fails. It has no meaning if there
are not enough ids for the derived facts. -/
def Plan.meaning? (p : Plan) (r : Reading σ) : Option (Except Error (List Value)) :=
  match p.values r ⟨∅, ∅, FactStore.nextId r.store⟩ with
  | .ok (values, _) => some (.ok values)
  | .error (.failed e) => some (.error e)
  | .error .outOfIds => none

end Factbase
