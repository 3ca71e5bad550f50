import Factbase.Query.Compile
import Factbase.Schema.Conversion
import Factbase.Store.Basic

/-!
# Reading facts

A query reads facts under the schema it was compiled for, while they are
stored under another. In stored mode a predicate is read from the facts
of just that predicate. In current mode it is read from the facts of
every version of its name that is not above its own, and facts of an
older version are converted.

Besides the facts of the store there are those of derived predicates,
which a query makes up as it goes. They are kept in an overlay and are
read as what they are.
-/

namespace Factbase

/-- What a query reads: a store, the schema its facts are stored under, and the
schema and the mode of the query. -/
structure Reading (σ : Type) where
  store : σ
  stored : Schema
  target : Schema
  mode : SchemaMode

/-- How the keys and values of one predicate are read as those of another. -/
structure FactConversion where
  key : Conversion
  value : Conversion

/-- Derived facts by id. -/
abbrev Overlay := SortedMap FactId Fact

namespace Reading

variable {σ : Type} [FactStore σ]

/-- Whether facts stored under one predicate are read as facts of another. -/
def readable (r : Reading σ) (source target : Predicate) : Bool :=
  match r.mode with
  | .stored => source = target
  | .current => source.name = target.name && source.version ≤ target.version

/-- The stored predicates whose facts are read as facts of a predicate. -/
def sources (r : Reading σ) (target : Predicate) : List Predicate :=
  match r.mode with
  | .stored => [target]
  | .current => (FactStore.predicates r.store).filter (r.readable · target)

/-- How facts stored under one predicate are read as facts of another. -/
def conversion (r : Reading σ) (source target : Predicate) : Except Error FactConversion :=
  if r.mode = .stored ∧ source = target then .ok ⟨.identity, .identity⟩
  else
    match r.stored.get? source, r.target.get? target with
    | none, _ => .error (.type (.noStoredDefinition source))
    | some _, none => .error (.unresolved (.unknown target.render))
    | some old, some new => do
      let unreadable (e : ConversionFault) : Error := .type (.unreadable source target e)
      let key ← (Conversion.between old.key new.key).mapError unreadable
      let value ← (Conversion.between old.value new.value).mapError unreadable
      return ⟨key, value⟩

/-- Make sure that the facts of a predicate can be read. -/
def prepare (r : Reading σ) (target : Predicate) : Except Error Unit :=
  (r.sources target).forM fun source => discard (r.conversion source target)

/-- A stored fact as a fact of a predicate. -/
def convert (r : Reading σ) (f : Fact) (target : Predicate) : Except Error Fact := do
  let c ← r.conversion f.predicate target
  let key ← orTypeError (c.key.apply f.key)
  let value ← orTypeError (c.value.apply f.value)
  return ⟨f.id, target, key, value⟩

/-- A fact as a fact of a predicate, if it is there and is one. -/
def read (r : Reading σ) (overlay : Overlay) (id : FactId) (target : Predicate) :
    Except Error (Option Fact) :=
  match overlay.get? id with
  | some f => return if f.predicate = target then some f else none
  | none =>
    match FactStore.lookup r.store id with
    | some f =>
      if r.readable f.predicate target then some <$> r.convert f target else return none
    | none => return none

/-- The predicate that a stored fact is read as when the query does not say: the
latest version of its name, unless that is an older one. -/
def ownTarget (r : Reading σ) (p : Predicate) : Predicate :=
  match r.mode with
  | .stored => p
  | .current => ((r.target.latest? p.name).filter fun q => p.version ≤ q.version).getD p

/-- A stored fact as whatever it is read as. -/
def readStored (r : Reading σ) (f : Fact) : Except Error Fact :=
  r.convert f (r.ownTarget f.predicate)

/-- A fact as whatever it is read as, if it is there. -/
def readAny (r : Reading σ) (overlay : Overlay) (id : FactId) : Except Error (Option Fact) :=
  match overlay.get? id with
  | some f => return some f
  | none =>
    match FactStore.lookup r.store id with
    | some f => some <$> r.readStored f
    | none => return none

/-- Ids in ascending order. -/
def sortIds (ids : List FactId) : List FactId := ids.mergeSort fun a b => a.number ≤ b.number

/-- The facts that are read as facts of a predicate. -/
def scan (r : Reading σ) (target : Predicate) : List FactId :=
  sortIds ((r.sources target).flatMap (FactStore.scan r.store))

/-- Facts among which are all those that are read as facts of a predicate and then
have a key. Where keys are not converted these are found by their key; the
others are all given. -/
def seek (r : Reading σ) (target : Predicate) (key : Value) : Except Error (List FactId) := do
  let found ← (r.sources target).mapM fun source => do
    let c ← r.conversion source target
    return if c.key.isIdentity then FactStore.seek r.store source key
      else FactStore.scan r.store source
  return sortIds found.flatten

end Reading

end Factbase
