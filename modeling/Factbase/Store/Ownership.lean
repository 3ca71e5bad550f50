import Factbase.Store.Basic

/-!
# Ownership

The owners of a fact are the facts that reach it through references and
that no fact refers to. A fact refers only to facts before it, so the
owners of all facts are found in a single pass from the last fact to the
first: when a fact is met, everything that refers to it has been met.
-/

namespace Factbase

/-- The owners of every fact. -/
abbrev Ownership := SortedMap FactId (SortedSet FactId)

namespace Ownership

/-- The facts that refer to each fact, in the order of their ids. -/
abbrev Referrers := SortedMap FactId (List FactId)

/-- Note the references of a fact. -/
def noteFact (m : Referrers) (f : Fact) : Referrers :=
  f.references.foldl (fun m target => m.update target [] (· ++ [f.id])) m

/-- Add the owners of a fact to those of the facts after it. -/
def addFact (referrers : Referrers) (owners : Ownership) (id : FactId) : Ownership :=
  let own : SortedSet FactId :=
    match referrers.get? id with
    | none => SortedSet.ofList [id]
    | some rs => SortedSet.ofList ((rs.filterMap owners.get?).flatMap (·.toList))
  owners.insert id own

/-- The owners of facts given in the order of their ids. -/
def ofFacts (facts : List Fact) : Ownership :=
  let referrers := facts.foldl noteFact ∅
  (facts.map (·.id)).reverse.foldl (addFact referrers) ∅

/-- The owners of all facts of a store. -/
def compute {σ : Type} [FactStore σ] (store : σ) : Except Error Ownership :=
  ofFacts <$> (FactStore.ids store).mapM (FactStore.get store)

/-- The owners of a fact: `a || b || c`. -/
def describe (owners : SortedSet FactId) : String :=
  " || ".intercalate (owners.toList.map FactId.render)

end Ownership

end Factbase
