/-!
# Numerals

Reading unsigned decimal numerals below a bound, and cutting a text at a
separator. A numeral is a possibly empty plus sign and at least one
ASCII digit; leading zeros are allowed.
-/

namespace Factbase

-- `2 ^ 64` is the power of the core library, whatever else is imported
attribute [default_instance 20000] instPowNat

/-- The number that decimal digits spell, most significant first. -/
def digitsValue (digits : List Char) : Nat :=
  digits.foldl (fun n c => 10 * n + (c.toNat - '0'.toNat)) 0

/-- The number below `bound` that the digits spell. -/
def readDigits? (bound : Nat) (digits : List Char) : Option Nat :=
  if !digits.isEmpty && digits.all Char.isDigit && digitsValue digits < bound then
    some (digitsValue digits)
  else none

/-- The number below `bound` that the numeral spells; one plus sign may stand in front. -/
def readNumeral? (bound : Nat) : List Char → Option Nat
  | '+' :: digits => readDigits? bound digits
  | digits => readDigits? bound digits

/-- A numeral that fits 32 bits. -/
def readUInt32? (cs : List Char) : Option UInt32 := (readNumeral? (2 ^ 32) cs).map UInt32.ofNat

/-- A numeral that fits 64 bits. -/
def readUInt64? (cs : List Char) : Option UInt64 := (readNumeral? (2 ^ 64) cs).map UInt64.ofNat

/-- The parts before and after the first `sep`. -/
def splitFirst (sep : Char) : List Char → Option (List Char × List Char)
  | [] => none
  | c :: rest =>
    if c = sep then some ([], rest)
    else (splitFirst sep rest).map fun parts => (c :: parts.1, parts.2)

/-- The parts before and after the last `sep`. -/
def splitLast (sep : Char) (cs : List Char) : Option (List Char × List Char) :=
  (splitFirst sep cs.reverse).map fun parts => (parts.2.reverse, parts.1.reverse)

/-- `name.N` as the name and the version, and any other text as itself.
The name before the version is not empty. -/
def splitVersion (text : String) : String × Option UInt32 :=
  match splitLast '.' text.toList with
  | some (c :: name, version) =>
    match readUInt32? version with
    | some v => (String.ofList (c :: name), some v)
    | none => (text, none)
  | _ => (text, none)

end Factbase
