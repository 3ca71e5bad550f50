import Factbase.Ingest.FactFile
import Factbase.Schema.ValueJson
import Factbase.Store.Basic

/-!
# Staging fact files

The facts of a file are checked against a schema and staged into one
batch, so that they are committed together or not at all.

A reference to another fact is its number in the file, alone or as the
`id` of an object, or an object that defines the fact on the spot. The
definition may carry a number too. Definitions are nested in the document
that they are part of, so the recursion is on its depth.
-/

namespace Factbase

/-- The batch that facts are staged into, and the facts that numbers stand for. -/
structure Staging where
  batch : FactBatch
  labels : SortedMap UInt64 (FactId × Predicate)

namespace Staging

/-- A step of staging. -/
abbrev Step (α : Type) := StateT Staging (Except Rejection) α

/-- The fact that a number stands for, which must be one of the predicate's name. -/
def labelled (label : UInt64) (p : Predicate) : Step FactId := do
  match (← get).labels.get? label with
  | none => throw (.undefinedLabel label)
  | some (id, actual) =>
    if actual.name = p.name then return id else throw (.otherPredicate label actual p.name)

/-- Let a number stand for a fact. -/
def setLabel (label : UInt64) (id : FactId) (p : Predicate) : Step Unit := do
  let s ← get
  match s.labels.get? label with
  | some (old, _) => if old ≠ id then throw (.definedTwice label)
  | none => pure ()
  set { s with labels := s.labels.insert label (id, p) }

/-- How a fact with a predicate, a key and a value is staged. -/
abbrev Insert := Predicate → Value → Value → Step FactId

/-- Stage a fact for a store. -/
def insert {σ : Type} [FactStore σ] (store : σ) : Insert := fun p key value s =>
  match FactStore.stage store s.batch p key value with
  | .ok (batch, id) => .ok (id, { s with batch })
  | .error e => .error (.staging e)

/-- Stage the fact of a predicate that a key, a value and a number describe. -/
def define (insert : Insert) (read : ReadReference Staging) (d : Definition) (label : Option UInt64)
    (key : Json) (value : Option Json) : Step FactId := do
  let k ← d.key.decodeJson read [] key
  let v ← match value with
    | some j => d.value.decodeJson read [] j
    | none =>
      match d.value.zero? with
      | some v => pure v
      | none => throw .missingValue
  let id ← insert d.predicate k v
  match label with
  | some l => setLabel l id d.predicate
  | none => pure ()
  return id

/-- The number that the members of an object give a fact. -/
def memberLabel (members : List (String × Json)) : Step (Option UInt64) :=
  match members.lookup "id" with
  | some (.nat n) => pure (some n)
  | some _ => throw .labelNotNumber
  | none => pure none

/-- The fact that a reference stands for; `nested` stages a definition inside it, where
that is possible. -/
def reference (schema : Schema)
    (nested : Option (Definition → Option UInt64 → Json → Option Json → Step FactId)) :
    ReadReference Staging := fun j p =>
  match j with
  | .nat label => labelled label p
  | .object members => do
    let label ← memberLabel members
    match members.lookup "key", label, nested with
    | some key, label, some define =>
      match schema.get? p with
      | some d => define d label key (members.lookup "value")
      | none => throw (.unknownPredicate p)
    | none, some label, _ => labelled label p
    | _, _, _ => throw (.notAReference p)
  | _ => throw (.notAReference p)

/-- The fact that a reference stands for. Definitions are nested to a depth of at
most `depth`. -/
def readReference (schema : Schema) (insert : Insert) : Nat → ReadReference Staging
  | 0 => reference schema none
  | depth + 1 => reference schema (some (define insert (readReference schema insert depth)))

/-- Stage an entry of a file. -/
def entry (schema : Schema) (insert : Insert) (d : Definition) (e : FactEntry) : Step FactId :=
  let depth := max e.key.depth ((e.value.map Json.depth).getD 0)
  define insert (readReference schema insert depth) d e.label e.key e.value

end Staging

namespace FactFile

/-- The definition that a file means by a name, with a version or without. Facts
of derived predicates cannot be given. -/
def definitionOf (schema : Schema) (text : String) : Except Error Definition := do
  let unresolved : Except Unresolved Definition :=
    match Predicate.read? text with
    | some p =>
      if (schema.latest? p.name).isSome then schema.resolve p.name (some p.version)
      else schema.resolve text none
    | none => schema.resolve text none
  let d ← unresolved.mapError .unresolved
  if d.isDerived then throw (.type (.derivedIngest d.predicate))
  return d

/-- Stage the entries of a group, the first of them being number `n`. -/
def stageEntries (schema : Schema) (insert : Staging.Insert) (d : Definition) (n : Nat)
    (es : List FactEntry) (s : Staging) : Except Error Staging :=
  match es with
  | [] => .ok s
  | e :: es =>
    match Staging.entry schema insert d e s with
    | .ok (_, s) => stageEntries schema insert d (n + 1) es s
    | .error reason => .error (.type (.rejected d.predicate n reason))

/-- Stage the facts of groups. -/
def stageGroups (schema : Schema) (insert : Staging.Insert) (gs : List FactGroup) (s : Staging) :
    Except Error Staging :=
  gs.foldlM (fun s g => do stageEntries schema insert (← definitionOf schema g.predicate) 0 g.facts s) s

/-- The batch of the facts of a file, staged one by one on top of an empty batch. -/
def stageBy (f : FactFile) (schema : Schema) (insert : Staging.Insert) (b : FactBatch) :
    Except Error FactBatch := do
  let s ← (stageGroups schema insert f.groups ⟨b, ∅⟩).mapError fun e => .ingestion f.name (.rejected e)
  return s.batch

/-- The batch of the facts of a file for a store. -/
def stage {σ : Type} [FactStore σ] (f : FactFile) (schema : Schema) (store : σ) :
    Except Error FactBatch :=
  f.stageBy schema (Staging.insert store) (FactStore.newBatch store)

end FactFile

end Factbase
