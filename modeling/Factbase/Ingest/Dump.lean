import Factbase.Ingest.FactFile
import Factbase.Schema.ValueJson
import Factbase.Store.Basic

/-!
# Dumps

A dump is all facts of a store as the groups of a fact file. Facts stand
in the order of their ids, which are their numbers in the file; facts of
one predicate that follow one another form a group. Since a fact refers
only to facts before it, every reference in a dump is to a number that
has been given.
-/

namespace Factbase

namespace FactEntry

/-- The JSON form of an entry. -/
def toJson (e : FactEntry) : Json := .object <|
  (match e.label with
    | some n => [("id", .nat n)]
    | none => []) ++
  ("key", e.key) ::
  (match e.value with
    | some v => [("value", v)]
    | none => [])

/-- A fact as an entry whose number is its id. -/
def ofFact (d : Definition) (f : Fact) : Except Error FactEntry := do
  let key ← d.key.toJson f.key
  match f.value? with
  | some v => return ⟨some f.id.number, key, some (← d.value.toJson v)⟩
  | none => return ⟨some f.id.number, key, none⟩

end FactEntry

namespace FactGroup

/-- The JSON form of a group. -/
def toJson (g : FactGroup) : Json :=
  .object [("predicate", .string g.predicate), ("facts", .array (g.facts.map FactEntry.toJson))]

/-- Put an entry in front of groups: into the first one if the predicate is the same. -/
def cons (predicate : String) (e : FactEntry) : List FactGroup → List FactGroup
  | [] => [⟨predicate, [e]⟩]
  | g :: gs =>
    if g.predicate = predicate then { g with facts := e :: g.facts } :: gs
    else ⟨predicate, [e]⟩ :: g :: gs

/-- The text of groups, as a file has it. -/
def fileText (gs : List FactGroup) : String := (Json.array (gs.map toJson)).pretty ""

end FactGroup

namespace FactStore

variable {σ : Type} [FactStore σ]

/-- The entries of facts, each with its predicate. -/
def dumpEntries (store : σ) (schema : Schema) (ids : List FactId) :
    Except Error (List (String × FactEntry)) :=
  ids.mapM fun id => do
    let f ← get store id
    match schema.get? f.predicate with
    | some d => return (f.predicate.render, ← FactEntry.ofFact d f)
    | none => throw (.unresolved (.unknown f.predicate.render))

/-- The dump of a store whose facts are stored under a schema. -/
def dump (store : σ) (schema : Schema) : Except Error (List FactGroup) := do
  let entries ← dumpEntries store schema (ids store)
  return entries.foldr (fun e gs => FactGroup.cons e.1 e.2 gs) []

end FactStore

end Factbase
