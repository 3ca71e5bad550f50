import Factbase.Blake3
import Factbase.Error
import Factbase.Store.State
import Factbase.Store.Statistics

/-!
# Fact stores

A store holds the facts of one database. It only ever grows: facts are
staged in a batch first, and a batch is committed as a whole or not at
all. Equal facts are one fact, which its content digest identifies; the
batch and the store are both searched for it before a fact is staged.

Ids are given in the order of staging, starting at `FactId.first`, and a
fact may refer only to facts that come before it. A batch can be
committed only while the store still stands where the batch began.

Stores differ in how they keep facts; `FactStore` is what they have in
common.
-/

namespace Factbase

/-- The ids from the first one up to the one before `next`. -/
def FactId.upTo (next : FactId) : List FactId :=
  (List.range (next.number.toNat - FactId.first.number.toNat)).map fun i =>
    ⟨UInt64.ofNat (FactId.first.number.toNat + i)⟩

/-! ## Batches -/

/-- Facts staged for one commit, in the order of their ids, with their content
digests. -/
structure FactBatch where
  /-- Where the store stood when the batch was begun. -/
  base : FactId
  /-- The id of the next fact to be staged. -/
  next : FactId
  staged : List (Digest × Fact)
deriving DecidableEq, Inhabited

namespace FactBatch

/-- A batch that begins at the given id. -/
def startingAt (base : FactId) : FactBatch := ⟨base, base, []⟩

/-- The staged fact with a content digest. -/
def find? (b : FactBatch) (digest : Digest) : Option FactId :=
  (b.staged.find? fun s => s.1 == digest).map (·.2.id)

/-- A staged fact. -/
def get? (b : FactBatch) (id : FactId) : Option Fact :=
  if id.number < b.base.number then none
  else (b.staged[id.number.toNat - b.base.number.toNat]?).map (·.2)

/-- The staged facts in the order of their ids. -/
def facts (b : FactBatch) : List Fact := b.staged.map (·.2)

def size (b : FactBatch) : Nat := b.staged.length

/-- The first of some references that points at no earlier fact. -/
def dangling? (b : FactBatch) (references : List FactId) : Option FactId :=
  references.find? fun r => r.number < FactId.first.number || b.next.number ≤ r.number

/-- The batch with one more fact, which is not in it yet. -/
def push (b : FactBatch) (digest : Digest) (p : Predicate) (key value : Value) : FactBatch :=
  { b with next := b.next.next, staged := b.staged ++ [(digest, ⟨b.next, p, key, value⟩)] }

end FactBatch

/-! ## Stores -/

/-- What every store can do. -/
class FactStore (σ : Type) where
  /-- A fact by its id. -/
  lookup : σ → FactId → Option Fact
  /-- The fact with a content digest. -/
  find : σ → Digest → Option FactId
  /-- The facts of a predicate, in the order of their ids. -/
  scan : σ → Predicate → List FactId
  /-- The facts of a predicate that have a key, in the order of their ids. -/
  seek : σ → Predicate → Value → List FactId
  /-- The predicates that have facts. -/
  predicates : σ → List Predicate
  /-- The id that the next fact will have. -/
  nextId : σ → FactId
  state : σ → StoreState
  setState : σ → StoreState → σ
  statistics : σ → Statistics
  /-- The number of facts. -/
  size : σ → Nat
  /-- Append the facts of a batch. -/
  commit : σ → FactBatch → Except Error σ
  /-- Keep the encoding of the schema that the facts are stored under. -/
  saveSchema : σ → Bytes → σ
  loadSchema : σ → Option Bytes

/-- Whether a batch can be committed to a store that stands at `next`. -/
def FactBatch.checkCommit (b : FactBatch) (next : FactId) (state : StoreState) :
    Except Error Unit :=
  if state ≠ .building then .error .storeSealed
  else if b.base ≠ next then .error (.storage (.staleBatch b.base next))
  else .ok ()

namespace FactStore

variable {σ : Type} [FactStore σ]

/-- The ids of all facts. -/
def ids (s : σ) : List FactId := (nextId s).upTo

/-- A fact that should be there. -/
def get (s : σ) (id : FactId) : Except Error Fact :=
  match lookup s id with
  | some f => .ok f
  | none => .error (.notFound (.fact id))

/-- An empty batch for a store. -/
def newBatch (s : σ) : FactBatch := .startingAt (nextId s)

/-- Stage a fact, unless it is there already; its id comes with the batch. -/
def stage (s : σ) (b : FactBatch) (p : Predicate) (key value : Value) :
    Except StagingFault (FactBatch × FactId) :=
  if state s ≠ .building then .error .notBuilding
  else
    let digest := contentDigest p key value
    match find s digest <|> b.find? digest with
    | some id => .ok (b, id)
    | none =>
      match b.dangling? (key.references ++ value.references) with
      | some r => .error (.dangling r)
      | none => .ok (b.push digest p key value, b.next)

/-- Insert one fact in a batch of its own. -/
def insert (s : σ) (p : Predicate) (key value : Value) : Except Error (σ × FactId) := do
  let (b, id) ← (stage s (newBatch s) p key value).mapError .staging
  return (← commit s b, id)

end FactStore

end Factbase
