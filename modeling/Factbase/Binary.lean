import Factbase.Value

/-!
# Binary encoding

The canonical byte encoding that digests are taken over and that stored
facts and snapshots are written in. Bytes and truth values are one byte;
wider numbers and lengths are base-128 varints, least significant group
first; texts and lists are their length and their content; an optional
value is a zero, or a one and the value; a choice is its number and its
content; a record is its fields in order. A map is the list of its
entries.

Decoding takes a value off the front of a byte list. It refuses short
input, varints that are too long or too large for their type, truth
values and options other than zero and one, texts that are not UTF-8 and
choices that do not exist. It accepts a varint padded with zero groups
within its length, and map entries in any order, the last of a key
winning.
-/

namespace Factbase

/-- A byte sequence. -/
abbrev Bytes := List UInt8

/-- A decoder takes a value off the front of a byte sequence, or refuses it. -/
abbrev Decoder (α : Type) := StateT Bytes Option α

/-- A type with an encoding. -/
class Binary (α : Type) where
  encode : α → Bytes
  decode : Decoder α

export Binary (encode decode)

namespace Binary

/-! ## Numbers -/

/-- Base-128 groups of `n`, least significant first, all but the last marked. -/
def varint (n : Nat) : Bytes :=
  if n < 128 then [UInt8.ofNat n]
  else UInt8.ofNat (n % 128 + 128) :: varint (n / 128)

/-- Read at most `groups` groups; the last of them is at most `top`. -/
def readVarint (top : Nat) : Nat → Decoder Nat
  | 0, _ => none
  | _ + 1, [] => none
  | groups + 1, b :: rest =>
    let group := b.toNat % 128
    if b.toNat < 128 then
      if groups = 0 && b.toNat > top then none else some (group, rest)
    else (readVarint top groups rest).map fun (n, rest) => (group + 128 * n, rest)

/-- A number below `2 ^ 32`. -/
def readVarint32 : Decoder Nat := readVarint 15 5

/-- A number below `2 ^ 64`. -/
def readVarint64 : Decoder Nat := readVarint 1 10

instance : Binary UInt8 where
  encode n := [n]
  decode
    | [] => none
    | b :: rest => some (b, rest)

instance : Binary Bool where
  encode b := [if b then 1 else 0]
  decode
    | 0 :: rest => some (false, rest)
    | 1 :: rest => some (true, rest)
    | _ => none

instance : Binary UInt32 where
  encode n := varint n.toNat
  decode := UInt32.ofNat <$> readVarint32

instance : Binary UInt64 where
  encode n := varint n.toNat
  decode := UInt64.ofNat <$> readVarint64

/-! ## Texts, lists, pairs, options and maps -/

/-- The next `n` bytes. -/
def readBytes (n : Nat) : Decoder Bytes := fun bs =>
  if n ≤ bs.length then some (bs.take n, bs.drop n) else none

/-- The text whose UTF-8 form the bytes are. -/
def text? (bs : Bytes) : Option String := String.fromUTF8? ⟨bs.toArray⟩

/-- The UTF-8 form of a text. -/
def textBytes (s : String) : Bytes := s.toUTF8.data.toList

instance : Binary String where
  encode s := varint (textBytes s).length ++ textBytes s
  decode := do text? (← readBytes (← readVarint64))

/-- `n` values, one after another. -/
def readMany {α : Type} (read : Decoder α) : Nat → Decoder (List α)
  | 0 => return []
  | n + 1 => return (← read) :: (← readMany read n)

/-- A list read with the given decoder for its elements. -/
def readList {α : Type} (read : Decoder α) : Decoder (List α) := do
  readMany read (← readVarint64)

/-- An optional value read with the given decoder. -/
def readOption {α : Type} (read : Decoder α) : Decoder (Option α)
  | 0 :: bs => some (none, bs)
  | 1 :: bs => (some <$> read) bs
  | _ => none

/-- Run a decoder that needs a bound on nesting. Each level takes up a byte at
least, so the length of the input is one. -/
def readNested {α : Type} (read : Nat → Decoder α) : Decoder α := do
  read (← get).length

variable {α β : Type} [Binary α] [Binary β]

instance : Binary (α × β) where
  encode p := encode p.1 ++ encode p.2
  decode := return (← decode, ← decode)

instance : Binary (List α) where
  encode xs := varint xs.length ++ xs.flatMap encode
  decode := readList decode

instance : Binary (Option α) where
  encode
    | none => [0]
    | some a => 1 :: encode a
  decode := readOption decode

instance [Ord α] [Std.TransOrd α] : Binary (SortedMap α β) where
  encode m := encode m.entries
  decode := SortedMap.ofList <$> decode

/-! ## Facts -/

instance : Binary FactId where
  encode id := encode id.number
  decode := FactId.mk <$> decode

instance : Binary Predicate where
  encode p := encode p.name ++ encode p.version
  decode := return ⟨← decode, ← decode⟩

mutual
/-- The bytes of a value: its shape, then its content. -/
def encodeValue : Value → Bytes
  | .byte n => 0 :: encode n
  | .nat n => 1 :: encode n
  | .bool b => 2 :: encode b
  | .string s => 3 :: encode s
  | .array items => 4 :: (varint items.length ++ encodeValues items)
  | .record fields => 5 :: (varint fields.length ++ encodeValues fields)
  | .alt index payload => 6 :: (encode index ++ encodeValue payload)
  | .fact id => 7 :: encode id

/-- The bytes of values, one after another. -/
def encodeValues : List Value → Bytes
  | [] => []
  | v :: vs => encodeValue v ++ encodeValues vs
end

/-- Read a value nested no deeper than the given number of levels. -/
def readValue : Nat → Decoder Value
  | 0 => failure
  | depth + 1 => do
    match ← readVarint32 with
    | 0 => return .byte (← decode)
    | 1 => return .nat (← decode)
    | 2 => return .bool (← decode)
    | 3 => return .string (← decode)
    | 4 => return .array (← readList (readValue depth))
    | 5 => return .record (← readList (readValue depth))
    | 6 => return .alt (← decode) (← readValue depth)
    | 7 => return .fact (← decode)
    | _ => failure

instance : Binary Value where
  encode := encodeValue
  decode := readNested readValue

instance : Binary Fact where
  encode f := encode f.id ++ encode f.predicate ++ encode f.key ++ encode f.value
  decode := return ⟨← decode, ← decode, ← decode, ← decode⟩

end Binary

end Factbase
