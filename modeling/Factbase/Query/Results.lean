import Factbase.Query.Machine
import Factbase.Query.Rendering

/-!
# Query results

Executing a compiled query: every conversion that it may need is built
first, so that a change of schemas that cannot be bridged shows before
there is any result; then the program is run; then its values are
rendered.
-/

namespace Factbase

/-- One result. For a fact it has the id and the predicate; the key is the key of
the fact, or else the value itself. -/
structure Binding where
  id : Option FactId
  predicate : Option Predicate
  key : Value
  value : Option Value
  json : Json

/-- The results of a query. -/
structure QueryResults where
  bindings : List Binding
  /-- There were more than the limit allows. -/
  truncated : Bool
  /-- The number of facts looked at. -/
  searched : Nat
  /-- The same by predicate, where it was asked for. -/
  profile : Option Profile

namespace CompiledQuery

variable {σ : Type} [FactStore σ]

/-- All predicates whose stored facts the query may read, in order. -/
def touches (q : CompiledQuery) : List Predicate :=
  (SortedSet.ofList (q.program.main.touches.toList ++
    q.program.derived.values.flatMap (·.touches.toList))).toList

/-- The fact that a value stands for, if the query yields facts. -/
def factOf (q : CompiledQuery) (r : Reading σ) (overlay : Overlay) (v : Value) :
    Except Error (Option Fact) := do
  let found (id : FactId) (f : Option Fact) : Except Error (Option Fact) :=
    if f.isSome then .ok f else .error (.notFound (.fact id))
  match q.plan.main.outcome, v with
  | .fact p, .fact id => found id (← r.read overlay id p)
  | .anyFact, .fact id => found id (← r.readAny overlay id)
  | _, _ => return none

/-- The result for a value. -/
def binding (q : CompiledQuery) (r : Reading σ) (overlay : Overlay) (policy : ExpandPolicy)
    (v : Value) : Except Error Binding := do
  let rendering : Rendering := ⟨r.read overlay, q.schema, policy, q.plan.main.noExpand⟩
  match ← q.factOf r overlay v with
  | some f => return ⟨some f.id, some f.predicate, f.key, f.value?, ← rendering.fact f⟩
  | none =>
    match q.plan.main.outcome with
    | .value ty => return ⟨none, none, v, none, ← rendering.value ty v⟩
    | _ => throw (.type (.notAFact v))

/-- Execute a query on a store whose facts are stored under a schema. -/
def execute (q : CompiledQuery) (store : σ) (stored : Schema) (o : QueryOptions) :
    Except Error QueryResults := do
  let r : Reading σ := ⟨store, stored, q.schema, q.mode⟩
  q.touches.forM r.prepare
  let start : Evaluation :=
    ⟨∅, ∅, FactStore.nextId store, 0, if o.profile then some .empty else none⟩
  let (sink, e) ← (q.program.run r o.limit).run start
  let bindings ← sink.values.mapM (q.binding r e.overlay o.expand)
  return ⟨bindings, sink.truncated, e.searched, e.profile⟩

end CompiledQuery

end Factbase
