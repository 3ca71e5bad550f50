import Factbase.Error

/-!
# Conversions

Reading facts stored under one type through another. Fields of records
and alternatives of sums are matched by name: an added field takes its
default, a removed one is dropped, and an alternative may not be removed.
Arrays are converted element by element, and references to predicates of
one name are kept whatever their versions.

A conversion is prepared from two types once and then applied to any
number of values, so a change that cannot be bridged shows before the
first of them.
-/

namespace Factbase

mutual
/-- How to read a value of one type as a value of another. -/
inductive Conversion where
  | identity
  | array (elem : Conversion)
  /-- What becomes of each field of the target. -/
  | record (fields : List FieldConversion)
  /-- What becomes of each alternative of the source: its index in the target and
  the conversion of its payload. -/
  | sum (alts : List (UInt32 × Conversion))

/-- Where a field of the target comes from. -/
inductive FieldConversion where
  /-- The field of the source at an index, converted. -/
  | kept (index : Nat) (conversion : Conversion)
  /-- A constant. -/
  | added (value : Value)
end

instance : Inhabited Conversion := ⟨.identity⟩

namespace Conversion

def isIdentity : Conversion → Bool
  | .identity => true
  | _ => false

/-- Whether field conversions, the first of them at the given index, keep every
field as it is and where it is. -/
def keepsFields : Nat → List FieldConversion → Bool
  | _, [] => true
  | i, .kept index .identity :: rest => index == i && keepsFields (i + 1) rest
  | _, _ :: _ => false

/-- Whether alternatives, the first of them at the given index, stay as they are. -/
def keepsAlts : Nat → List (UInt32 × Conversion) → Bool
  | _, [] => true
  | i, (index, .identity) :: rest => index.toNat == i && keepsAlts (i + 1) rest
  | _, _ :: _ => false

mutual
/-- The conversion from one type to another. -/
def between (source target : Ty) : Except ConversionFault Conversion :=
  if source = target then .ok .identity
  else
    match target, source with
    | .predicate q, .predicate p =>
      if p.name = q.name then .ok .identity
      else .error (.incompatible (.predicate p) (.predicate q))
    | .array b, .array a => do
      let c ← between a b
      return if c.isIdentity then .identity else .array c
    | .record targets, .record sources => do
      let fields ← betweenFields sources targets
      return if fields.length == sources.length && keepsFields 0 fields then .identity
        else .record fields
    | .sum targets, .sum sources => do
      let alts ← sources.mapM fun alt => toAlternative alt.name alt.ty 0 targets
      return if alts.length == targets.length && keepsAlts 0 alts then .identity else .sum alts
    | target, source => .error (.incompatible source target)

/-- Where the fields of a target record come from. -/
def betweenFields (sources targets : List Field) :
    Except ConversionFault (List FieldConversion) :=
  match targets with
  | [] => .ok []
  | ⟨name, ty, declared⟩ :: rest => do
    let field ←
      match Field.locate? name sources with
      | some (index, field) => FieldConversion.kept index <$> between field.ty ty
      | none =>
        match (⟨name, ty, declared⟩ : Field).default? with
        | some v => .ok (.added v)
        | none => .error (.noDefault name)
    return field :: (← betweenFields sources rest)

/-- The target alternative of the given name, the first of `targets` being at
`index`, and the conversion of its payload. -/
def toAlternative (name : String) (source : Ty) (index : Nat) (targets : List Field) :
    Except ConversionFault (UInt32 × Conversion) :=
  match targets with
  | [] => .error (.removedAlternative name)
  | ⟨target, ty, _⟩ :: rest =>
    if target = name then (UInt32.ofNat index, ·) <$> between source ty
    else toAlternative name source (index + 1) rest
end

mutual
/-- Convert a value of the source type. -/
def apply (c : Conversion) (v : Value) : Except TypeFault Value :=
  match c, v with
  | .identity, v => .ok v
  | .array elem, .array items => .array <$> items.mapM elem.apply
  | .record fields, .record values => .record <$> applyFields fields values
  | .sum alts, .alt index payload => applyAlternative alts index.toNat payload
  | _, v => .error (.storedMismatch v.kind)

/-- The fields of the target record from the fields of a stored one. -/
def applyFields (fields : List FieldConversion) (values : List Value) :
    Except TypeFault (List Value) :=
  match fields with
  | [] => .ok []
  | .added v :: rest => (v :: ·) <$> applyFields rest values
  | .kept index c :: rest => do
    let v ←
      match values[index]? with
      | some v => c.apply v
      | none => .error .storedFieldMissing
    return v :: (← applyFields rest values)

/-- The target alternative for the stored one at an index. -/
def applyAlternative (alts : List (UInt32 × Conversion)) (index : Nat) (payload : Value) :
    Except TypeFault Value :=
  match alts, index with
  | [], _ => .error .storedAlternativeUnknown
  | (target, c) :: _, 0 => .alt target <$> c.apply payload
  | _ :: rest, index + 1 => applyAlternative rest index payload
end

end Conversion

end Factbase
