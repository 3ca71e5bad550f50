import Factbase.Store.Disk
import Factbase.Store.Memory

/-!
# Stores of either kind
-/

namespace Factbase

/-- A store in memory or on disk. -/
inductive Store where
  | memory (s : MemoryStore)
  | disk (s : DiskStore)
deriving DecidableEq, Inhabited

namespace Store

instance : FactStore Store where
  lookup
    | .memory s => FactStore.lookup s
    | .disk s => FactStore.lookup s
  find
    | .memory s => FactStore.find s
    | .disk s => FactStore.find s
  scan
    | .memory s => FactStore.scan s
    | .disk s => FactStore.scan s
  seek
    | .memory s => FactStore.seek s
    | .disk s => FactStore.seek s
  predicates
    | .memory s => FactStore.predicates s
    | .disk s => FactStore.predicates s
  nextId
    | .memory s => FactStore.nextId s
    | .disk s => FactStore.nextId s
  state
    | .memory s => FactStore.state s
    | .disk s => FactStore.state s
  setState
    | .memory s, state => .memory (FactStore.setState s state)
    | .disk s, state => .disk (FactStore.setState s state)
  statistics
    | .memory s => FactStore.statistics s
    | .disk s => FactStore.statistics s
  size
    | .memory s => FactStore.size s
    | .disk s => FactStore.size s
  commit
    | .memory s, b => .memory <$> FactStore.commit s b
    | .disk s, b => .disk <$> FactStore.commit s b
  saveSchema
    | .memory s, bytes => .memory (FactStore.saveSchema s bytes)
    | .disk s, bytes => .disk (FactStore.saveSchema s bytes)
  loadSchema
    | .memory s => FactStore.loadSchema s
    | .disk s => FactStore.loadSchema s

/-- Close the store and open it again. One in memory stays as it is. -/
def reopen : Store → Except Error Store
  | .memory s => .ok (.memory s)
  | .disk s => .disk <$> s.reopen

end Store

end Factbase
