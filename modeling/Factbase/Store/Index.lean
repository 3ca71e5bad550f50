import Factbase.Store.Basic

/-!
# Fact indexes

What a store keeps next to its facts so as to find them: by content, by
predicate, and by predicate and key; and the statistics. Facts are added
in the order of their ids, so every list of ids is ascending.
-/

namespace Factbase

/-- The indexes and the statistics of a store. -/
structure FactIndex where
  content : SortedMap Digest FactId
  byPredicate : SortedMap Predicate (List FactId)
  byKey : SortedMap Digest (List FactId)
  stats : Statistics
deriving DecidableEq

namespace FactIndex

def empty : FactIndex := ⟨∅, ∅, ∅, .empty⟩

instance : Inhabited FactIndex := ⟨empty⟩

/-- The length of the encoding of a fact's key and value. -/
def encodedSize (f : Fact) : Nat := (encode (f.key, f.value)).length

/-- The index with one more fact. -/
def add (i : FactIndex) (digest : Digest) (f : Fact) : FactIndex where
  content := i.content.insert digest f.id
  byPredicate := i.byPredicate.update f.predicate [] (· ++ [f.id])
  byKey := i.byKey.update (keyDigest f.predicate f.key) [] (· ++ [f.id])
  stats := i.stats.record f.predicate (encodedSize f)

/-- The index with more facts, given with their content digests. -/
def addAll (i : FactIndex) (facts : List (Digest × Fact)) : FactIndex :=
  facts.foldl (fun i e => i.add e.1 e.2) i

def scan (i : FactIndex) (p : Predicate) : List FactId := (i.byPredicate.get? p).getD []

def seek (i : FactIndex) (p : Predicate) (key : Value) : List FactId :=
  (i.byKey.get? (keyDigest p key)).getD []

end FactIndex

end Factbase
