import Factbase.Binary
import Factbase.Error
import Factbase.Schema.Snapshot

/-!
# Stored snapshots

The bytes of a schema snapshot: four bytes that mark the format, one for
its version, and the encoding of the snapshot. The header is checked
before the rest is read; bytes after the snapshot are ignored.
-/

namespace Factbase

namespace Binary

/-! ## Queries -/

mutual
def encodePattern : Pattern → Bytes
  | .wild => [0]
  | .var name => 1 :: encode name
  | .nat n => 2 :: encode n
  | .string s => 3 :: encode s
  | .stringStart s => 4 :: encode s
  | .bool b => 5 :: encode b
  | .array items => 6 :: (varint items.length ++ encodePatterns items)
  | .fields fs => 7 :: (varint fs.length ++ encodeNamedPatterns fs)
  | .tuple items => 8 :: (varint items.length ++ encodePatterns items)
  | .noExpand inner => 9 :: encodePattern inner

def encodePatterns : List Pattern → Bytes
  | [] => []
  | p :: ps => encodePattern p ++ encodePatterns ps

def encodeNamedPatterns : List (String × Pattern) → Bytes
  | [] => []
  | (name, p) :: ps => encode name ++ encodePattern p ++ encodeNamedPatterns ps
end

/-- Read a pattern nested no deeper than the given number of levels. -/
def readPattern : Nat → Decoder Pattern
  | 0 => failure
  | depth + 1 => do
    match ← readVarint32 with
    | 0 => return .wild
    | 1 => return .var (← decode)
    | 2 => return .nat (← decode)
    | 3 => return .string (← decode)
    | 4 => return .stringStart (← decode)
    | 5 => return .bool (← decode)
    | 6 => return .array (← readList (readPattern depth))
    | 7 => return .fields (← readList do return (← decode, ← readPattern depth))
    | 8 => return .tuple (← readList (readPattern depth))
    | 9 => return .noExpand (← readPattern depth)
    | _ => failure

instance : Binary Pattern where
  encode := encodePattern
  decode := readNested readPattern

instance : Binary Source where
  encode
    | .predicate name version pattern value =>
      0 :: (encode name ++ encode version ++ encode pattern ++ encode value)
    | .prim name arg => 1 :: (encode name ++ encode arg)
    | .factId id => 2 :: encode id
    | .expr pattern => 3 :: encode pattern
  decode := do
    match ← readVarint32 with
    | 0 => return .predicate (← decode) (← decode) (← decode) (← decode)
    | 1 => return .prim (← decode) (← decode)
    | 2 => return .factId (← decode)
    | 3 => return .expr (← decode)
    | _ => failure

instance : Binary Statement where
  encode s := encode s.bind ++ encode s.source
  decode := return ⟨← decode, ← decode⟩

instance : Binary Query where
  encode q := encode q.statements
  decode := Query.mk <$> decode

/-! ## Declarations -/

instance : Binary SchemaId where
  encode s := encode s.name ++ encode s.version
  decode := return ⟨← decode, ← decode⟩

instance : Binary Literal where
  encode
    | .nat n => 0 :: encode n
    | .string s => 1 :: encode s
    | .bool b => 2 :: encode b
  decode := do
    match ← readVarint32 with
    | 0 => return .nat (← decode)
    | 1 => return .string (← decode)
    | 2 => return .bool (← decode)
    | _ => failure

mutual
def encodeTypeExpr : TypeExpr → Bytes
  | .byte => [0]
  | .nat => [1]
  | .bool => [2]
  | .string => [3]
  | .array elem => 4 :: encodeTypeExpr elem
  | .record fields => 5 :: (varint fields.length ++ encodeFieldExprs fields)
  | .sum alts => 6 :: (varint alts.length ++ encodeFieldExprs alts)
  | .maybe inner => 7 :: encodeTypeExpr inner
  | .enum names => 8 :: encode names
  | .named name => 9 :: encode name

def encodeFieldExprs : List FieldExpr → Bytes
  | [] => []
  | ⟨name, ty, default⟩ :: fields =>
    encode name ++ encodeTypeExpr ty ++ encode default ++ encodeFieldExprs fields
end

/-- Read a type expression nested no deeper than the given number of levels. -/
def readTypeExpr : Nat → Decoder TypeExpr
  | 0 => failure
  | depth + 1 => do
    let fields : Decoder (List FieldExpr) := readList do
      return ⟨← decode, ← readTypeExpr depth, ← decode⟩
    match ← readVarint32 with
    | 0 => return .byte
    | 1 => return .nat
    | 2 => return .bool
    | 3 => return .string
    | 4 => return .array (← readTypeExpr depth)
    | 5 => return .record (← fields)
    | 6 => return .sum (← fields)
    | 7 => return .maybe (← readTypeExpr depth)
    | 8 => return .enum (← decode)
    | 9 => return .named (← decode)
    | _ => failure

instance : Binary TypeExpr where
  encode := encodeTypeExpr
  decode := readNested readTypeExpr

instance : Binary SchemaItem where
  encode
    | .alias name ty => 0 :: (encode name ++ encode ty)
    | .predicate name key value derivation =>
      1 :: (encode name ++ encode key ++ encode value ++ encode derivation)
  decode := do
    match ← readVarint32 with
    | 0 => return .alias (← decode) (← decode)
    | 1 => return .predicate (← decode) (← decode) (← decode) (← decode)
    | _ => failure

instance : Binary SchemaDecl where
  encode d := encode d.name ++ encode d.version ++ encode d.inherits ++ encode d.imports ++
    encode d.items
  decode := return ⟨← decode, ← decode, ← decode, ← decode, ← decode⟩

/-! ## Snapshots -/

mutual
def encodeTy : Ty → Bytes
  | .byte => [0]
  | .nat => [1]
  | .bool => [2]
  | .string => [3]
  | .array elem => 4 :: encodeTy elem
  | .record fields => 5 :: (varint fields.length ++ encodeFields fields)
  | .sum alts => 6 :: (varint alts.length ++ encodeFields alts)
  | .predicate p => 7 :: encode p

def encodeFields : List Field → Bytes
  | [] => []
  | ⟨name, ty, declared⟩ :: fields =>
    encode name ++ encodeTy ty ++ encode declared ++ encodeFields fields
end

/-- Read a type nested no deeper than the given number of levels. -/
def readTy : Nat → Decoder Ty
  | 0 => failure
  | depth + 1 => do
    let fields : Decoder (List Field) := readList do
      return ⟨← decode, ← readTy depth, ← decode⟩
    match ← readVarint32 with
    | 0 => return .byte
    | 1 => return .nat
    | 2 => return .bool
    | 3 => return .string
    | 4 => return .array (← readTy depth)
    | 5 => return .record (← fields)
    | 6 => return .sum (← fields)
    | 7 => return .predicate (← decode)
    | _ => failure

instance : Binary Ty where
  encode := encodeTy
  decode := readNested readTy

instance : Binary Derivation where
  encode d := encode d.key ++ encode d.body ++ encode d.scope
  decode := return ⟨← decode, ← decode, ← decode⟩

/-- Whether a predicate is derived is a choice, not an option: its number may be padded. -/
def readDerivation : Decoder (Option Derivation) := do
  match ← readVarint32 with
  | 0 => return none
  | 1 => return some (← decode)
  | _ => failure

instance : Binary Definition where
  encode d := encode d.predicate ++ encode d.key ++ encode d.value ++ encode d.derivation
  decode := return ⟨← decode, ← decode, ← decode, ← readDerivation⟩

instance : Binary SchemaInfo where
  encode s := encode s.decl ++ encode s.exports ++ encode s.aliases
  decode := return ⟨← decode, ← decode, ← decode⟩

instance : Binary Schema where
  encode s := encode s.predicates ++ encode s.schemas
  decode := return ⟨← decode, ← decode⟩

end Binary

namespace Schema

/-! ## The header -/

/-- The bytes that mark a stored snapshot: `FDB1`. -/
def formatMark : Bytes := [0x46, 0x44, 0x42, 0x31]

/-- The version of the format. -/
def formatVersion : UInt8 := 1

/-- The largest encoding of a snapshot that is read. -/
def maxEncoded : Nat := 64 * 1024 * 1024

/-- The stored form of a snapshot. -/
def toBytes (s : Schema) : Bytes := formatMark ++ formatVersion :: encode s

/-- The snapshot that bytes store. -/
def ofBytes (bs : Bytes) : Except FormatFault Schema :=
  match bs.drop 4 with
  | [] => .error .headerTooShort
  | version :: payload =>
    if bs.take 4 ≠ formatMark then .error .badMagic
    else if version ≠ formatVersion then .error (.unsupportedVersion version formatVersion)
    else if payload.length > maxEncoded then .error (.tooLarge payload.length maxEncoded)
    else match decode payload with
      | some (s, _) => .ok s
      | none => .error .malformed

end Schema

end Factbase
