import Factbase.Store.Index

/-!
# Stores in memory

A store that keeps its facts as they are.
-/

namespace Factbase

structure MemoryStore where
  facts : SortedMap FactId Fact
  index : FactIndex
  next : FactId
  state : StoreState
  schema : Option Bytes
deriving DecidableEq

namespace MemoryStore

/-- The store without facts. -/
def empty : MemoryStore := ⟨∅, .empty, .first, .building, none⟩

instance : Inhabited MemoryStore := ⟨empty⟩

/-- Append the facts of a batch. -/
def commit (s : MemoryStore) (b : FactBatch) : Except Error MemoryStore := do
  b.checkCommit s.next s.state
  return { s with
    facts := s.facts.insertMany (b.facts.map fun f => (f.id, f))
    index := s.index.addAll b.staged
    next := b.facts.foldl (fun _ f => f.id.next) s.next }

instance : FactStore MemoryStore where
  lookup s id := s.facts.get? id
  find s digest := s.index.content.get? digest
  scan s p := s.index.scan p
  seek s p key := s.index.seek p key
  predicates s := s.index.byPredicate.keys
  nextId := next
  state := state
  setState s state := { s with state }
  statistics s := s.index.stats
  size s := s.facts.size
  commit := commit
  saveSchema s bytes := { s with schema := some bytes }
  loadSchema := schema

end MemoryStore

end Factbase
