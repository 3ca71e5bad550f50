import Factbase.Query.Options
import Factbase.Query.Reading
import Factbase.Schema.ValueJson

/-!
# Rendering results

A result is written as JSON, with the facts that it refers to written in
place of the references where the policy wants it. A reference stays
`{"id": N}` where the query marked its place, when it points back at a
fact that is being written, when facts are nested too deeply, when the
same fact has already been written for the same referring fact, and when
the fact cannot be read at its type. The recursion is on the number of
facts that may still be nested.
-/

namespace Factbase

/-- How many facts may be nested in one another. -/
def maxExpansion : Nat := 64

/-- What the rendering of a result depends on: how to read facts, the schema they
are read under, the policy, and the places that the query marked. -/
structure Rendering where
  read : FactId → Predicate → Except Error (Option Fact)
  schema : Schema
  policy : ExpandPolicy
  noExpand : SortedSet (List String)

/-- The references that have been followed, as pairs of the referring fact and the
one referred to. -/
abbrev Followed := List (FactId × FactId)

namespace Rendering

/-- Write a fact whose reference stands at `path`; `write` is for the references in it. -/
def factJson (r : Rendering) (write : WriteReference Followed) (path : List String) (f : Fact) :
    StateT Followed (Except Error) Json := do
  match r.schema.get? f.predicate with
  | none => throw (.unresolved (.unknown f.predicate.render))
  | some d =>
    let key ← d.key.encodeJson write path f.key
    let members := [("id", .nat f.id.number), ("key", key)]
    match f.value? with
    | none => return .object members
    | some v =>
      let value ← d.value.encodeJson write (path ++ [valueRoot]) v
      return .object (members ++ [("value", value)])

/-- Write a reference, in place or as it is, inside the facts of `ancestors`, the
innermost first; `depth` more may be nested in them. -/
def writeReference (r : Rendering) (depth : Nat) (ancestors : List FactId) :
    WriteReference Followed := fun id p path =>
  match depth with
  | 0 => return id.toJson
  | depth + 1 => do
    if r.noExpand.contains path || !r.policy.expands p || ancestors.contains id then
      return id.toJson
    let pair := (ancestors.head?.getD id, id)
    if (← get).contains pair then return id.toJson
    modify (pair :: ·)
    match ← r.read id p with
    | some f => r.factJson (writeReference r depth (id :: ancestors)) path f
    | none => return id.toJson

/-- The rendering of a result that is a fact. -/
def fact (r : Rendering) (f : Fact) : Except Error Json :=
  Prod.fst <$> (r.factJson (r.writeReference (maxExpansion - 1) [f.id]) [] f).run []

/-- The rendering of a result that is a value of a type. -/
def value (r : Rendering) (ty : Ty) (v : Value) : Except Error Json := do
  let (key, _) ← (ty.encodeJson (r.writeReference maxExpansion []) [] v).run []
  return .object [("key", key)]

end Rendering

end Factbase
