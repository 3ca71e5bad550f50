import Factbase.Json.Basic
import Factbase.Text.Numeral
import Factbase.Text.Reader

/-!
# Reading JSON

A strict reader: no comments, no trailing commas, no trailing text, no
lone surrogates, no raw control characters, at most 127 containers
nested in one another.

Readers are pieces from which a reader of some fixed shape can be put
together: `Reader.value` reads any document, `Reader.skip` passes over
one that nobody asked for, `Reader.elements` and `Reader.members` walk a
container with a reader for what stands in it. All of them only say
whether the text is acceptable; there is a single way to fail.
-/

namespace Factbase

namespace Reader

/-- The deepest nesting of containers that is read. -/
def maxDepth : Nat := 127

def isSpace (c : Char) : Bool := c = ' ' || c = '\n' || c = '\t' || c = '\r'

/-- Pass over white space. -/
def spaces : Reader Unit := modify (·.dropWhile isSpace)

/-! ## Strings -/

/-- A 16-bit unit, as four hexadecimal digits. -/
def unit16 : Reader Nat := hexNumber 0 4

/-- What follows `\u`: one unit, or two that make a surrogate pair. -/
def codePoint : Reader Char := do
  let high ← unit16
  if 0xdc00 ≤ high && high ≤ 0xdfff then failure
  else if 0xd800 ≤ high && high ≤ 0xdbff then
    literal ['\\', 'u']
    let low ← unit16
    guard (0xdc00 ≤ low && low ≤ 0xdfff)
    return Char.ofNat (0x10000 + (high - 0xd800) * 0x400 + (low - 0xdc00))
  else return Char.ofNat high

/-- The character that an escape letter stands for. -/
def simpleEscape? : Char → Option Char
  | '"' => some '"'
  | '\\' => some '\\'
  | '/' => some '/'
  | 'b' => some '\x08'
  | 'f' => some '\x0c'
  | 'n' => some '\n'
  | 'r' => some '\r'
  | 't' => some '\t'
  | _ => none

/-- The characters of a string up to its closing quote; `point` reads what
follows `\u`. -/
def stringBody (point : Reader Char) : Nat → Reader (List Char)
  | 0 => failure
  | fuel + 1 => do
    let c ← next
    if c = '"' then return []
    else if c = '\\' then
      let e ← next
      let c ← if e = 'u' then point else simpleEscape? e
      return c :: (← stringBody point fuel)
    else if c.toNat < 0x20 then failure
    else return c :: (← stringBody point fuel)

/-- A string whose opening quote has been taken. -/
def stringRest (point : Reader Char) : Reader (List Char) := do
  stringBody point (← get).length

/-- A string. -/
def string : Reader String := do
  literal ['"']
  return String.ofList (← stringRest codePoint)

/-! ## Numbers -/

/-- The digits of a number: integral part, fraction, exponent with its sign. -/
structure Digits where
  integral : List Char
  fraction : Option (List Char)
  exponent : Option (Bool × List Char)

/-- At least one digit. -/
def digits1 : Reader (List Char) := do
  let ds ← takeWhile Char.isDigit
  guard !ds.isEmpty
  return ds

/-- The parts of an unsigned number. A leading zero stands alone. -/
def digits : Reader Digits := do
  let integral ← digits1
  guard (integral.head? ≠ some '0' || integral.length = 1)
  let fraction ← if ← eat '.' then some <$> digits1 else pure none
  let exponent ←
    match ← peek with
    | some 'e' | some 'E' =>
      discard next
      let up := !(← eat '-')
      if up then discard (eat '+')
      pure (some (up, ← digits1))
    | _ => pure none
  return ⟨integral, fraction, exponent⟩

/-- The longest run of digits whose number fits 64 bits, and what is left. -/
def significant : Nat → List Char → Nat × List Char
  | n, [] => (n, [])
  | n, c :: rest =>
    let m := 10 * n + (c.toNat - '0'.toNat)
    if m < 2 ^ 64 then significant m rest else (n, c :: rest)

/-- The floating-point number that digits denote: those that fit 64 bits,
scaled by a power of ten; the digits after them count for their place only. -/
def Digits.float? (d : Digits) : Option Binary64 :=
  let (whole, dropped) := significant 0 d.integral
  let (m, place) : Nat × Int :=
    match d.fraction with
    | none => (whole, dropped.length)
    | some f =>
      -- a digit of the fraction may still fit although one before the point did not
      let (m, rest) := significant whole f
      (m, dropped.length - (f.length - rest.length : Int))
  match d.exponent with
  | none => Binary64.ofDecimal? m place
  | some (up, e) =>
    let n := digitsValue e
    if n ≥ 2 ^ 31 then
      if m ≠ 0 && up then none else Binary64.ofDecimal? 0 0
    else Binary64.ofDecimal? m (if up then place + n else place - n)

/-- The number that a sign and digits denote. Negative zero and integers
beyond 64 bits are floating-point numbers. -/
def number (minus : Bool) : Reader Json := do
  let d ← digits
  let n := digitsValue d.integral
  if d.fraction.isNone && d.exponent.isNone && !minus && n < 2 ^ 64 then
    return .nat (UInt64.ofNat n)
  else if d.fraction.isNone && d.exponent.isNone && minus && 0 < n && n ≤ 2 ^ 63 then
    return .negative (UInt64.ofNat n)
  else
    let x ← d.float?
    return .float { x with negative := minus }

/-! ## Containers -/

/-- The rest of an array whose bracket has been taken, `first` saying that no
element has been read yet. -/
def elementsFrom {α : Type} (element : Reader α) : Nat → Bool → Reader (List α)
  | 0, _ => failure
  | fuel + 1, first => do
    spaces
    if ← eat ']' then return []
    if !first then
      literal [',']
      spaces
      guard ((← peek) ≠ some ']')
    let x ← element
    return x :: (← elementsFrom element fuel false)

/-- The elements of an array whose bracket has been taken. -/
def elements {α : Type} (element : Reader α) : Reader (List α) := do
  elementsFrom element ((← get).length + 1) true

/-- The rest of an object whose brace has been taken. -/
def membersFrom {σ : Type} (member : σ → String → Reader σ) : Nat → Bool → σ → Reader σ
  | 0, _, _ => failure
  | fuel + 1, first, s => do
    spaces
    if ← eat '}' then return s
    if !first then
      literal [',']
      spaces
    let name ← string
    spaces
    literal [':']
    spaces
    membersFrom member fuel false (← member s name)

/-- Fold over the members of an object whose brace has been taken; `member`
gets a name and reads the value. -/
def members {σ : Type} (member : σ → String → Reader σ) (s : σ) : Reader σ := do
  membersFrom member ((← get).length + 1) true s

/-! ## Documents -/

/-- A document whose containers hold what `inner` reads; without `inner` it
may not be a container. -/
def document (inner : Option (Reader Json)) : Reader Json := do
  spaces
  match ← peek with
  | some 'n' => literal ['n', 'u', 'l', 'l']; return .null
  | some 't' => literal ['t', 'r', 'u', 'e']; return .bool true
  | some 'f' => literal ['f', 'a', 'l', 's', 'e']; return .bool false
  | some '"' => return .string (← string)
  | some '-' => discard next; number true
  | some '[' =>
    discard next
    return .array (← elements (← inner))
  | some '{' =>
    discard next
    let inner ← inner
    return .object (← members (fun ms name => return Json.setMember ms name (← inner)) [])
  | _ => number false

/-- A document with at most `depth` containers nested in one another. -/
def value : Nat → Reader Json
  | 0 => document none
  | depth + 1 => document (some (value depth))

/-- Any unit, whether or not it is a code point of its own. -/
def anyUnit : Reader Char := do
  discard unit16
  return ' '

/-- The members of an object, each of them passed over. -/
def skipMembers (inner : Reader Unit) : Nat → Bool → Reader Unit
  | 0, _ => failure
  | fuel + 1, first => do
    spaces
    if ← eat '}' then return ()
    if !first then
      literal [',']
      spaces
    literal ['"']
    discard (stringRest anyUnit)
    spaces
    literal [':']
    inner
    skipMembers inner fuel false

/-- Pass over a document whose containers hold what `inner` passes over. -/
def skipDocument (inner : Reader Unit) : Reader Unit := do
  spaces
  match ← peek with
  | some 'n' => literal ['n', 'u', 'l', 'l']
  | some 't' => literal ['t', 'r', 'u', 'e']
  | some 'f' => literal ['f', 'a', 'l', 's', 'e']
  | some '"' => discard next; discard (stringRest anyUnit)
  | some '-' => discard next; discard digits
  | some '[' => discard next; discard (elements inner)
  | some '{' => discard next; skipMembers inner ((← get).length + 1) true
  | _ => discard digits

/-- Pass over a document. Its numbers may be of any size, its `\u` escapes
any units, and its containers nested to any depth that the text allows. -/
def skip : Reader Unit := do
  skipWithin (← get).length
where
  skipWithin : Nat → Reader Unit
    | 0 => failure
    | n + 1 => skipDocument (skipWithin n)

/-- Read the whole of a text, with white space around it. -/
def run {α : Type} (r : Reader α) (text : String) : Option α := do
  let (x, rest) ← r text.toList
  guard (rest.all isSpace)
  return x

end Reader

/-- The document that a text spells. -/
def Json.read? (text : String) : Option Json := Reader.run (Reader.value Reader.maxDepth) text

end Factbase
