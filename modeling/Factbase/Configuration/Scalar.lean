import Factbase.Text.Numeral
import Factbase.Text.Reader

/-!
# Numbers, dates and times

The spellings of integers, floating-point numbers, dates and times in
configuration documents. Digits may be set apart by single underscores in
numbers, but not in dates and times, where each part has a fixed number of
digits.
-/

namespace Factbase.Scalar

/-! ## Numbers -/

/-- Digits with single underscores between them. -/
def isDigitRun (isDigit : Char → Bool) : List Char → Bool
  | [] => false
  | [c] => isDigit c
  | c :: '_' :: cs => isDigit c && isDigitRun isDigit cs
  | c :: cs => isDigit c && isDigitRun isDigit cs

/-- The number of digits of a base. -/
def digitsIn (base : Nat) (cs : List Char) : Option Nat :=
  let value (c : Char) : Option Nat := (Reader.hexValue? c).filter (· < base)
  if isDigitRun (fun c => (value c).isSome) cs then
    some ((cs.filterMap value).foldl (fun n d => base * n + d) 0)
  else none

/-- Digits in base ten without a needless zero in front. -/
def isDecimal (cs : List Char) : Bool :=
  isDigitRun Char.isDigit cs && (cs.length = 1 || cs.head? ≠ some '0')

/-- The integer that a word spells. -/
def integer? : List Char → Option Int
  | '0' :: 'x' :: cs => (digitsIn 16 cs).map Int.ofNat
  | '0' :: 'o' :: cs => (digitsIn 8 cs).map Int.ofNat
  | '0' :: 'b' :: cs => (digitsIn 2 cs).map Int.ofNat
  | '+' :: cs => decimal? cs
  | '-' :: cs => (decimal? cs).map (- ·)
  | cs => decimal? cs
where
  decimal? (cs : List Char) : Option Int :=
    if isDecimal cs then (digitsIn 10 cs).map Int.ofNat else none

/-- Digits and underscores. -/
def digits : Reader (List Char) := Reader.takeWhile fun c => c.isDigit || c = '_'

/-- Pass over a sign, if there is one. -/
def sign : Reader Unit := do
  if !(← Reader.eat '-') then discard (Reader.eat '+')

/-- A fraction, if there is one. -/
def fraction : Reader Bool := do
  if ← Reader.eat '.' then
    guard (isDigitRun Char.isDigit (← digits))
    return true
  else return false

/-- An exponent, if there is one. -/
def exponent : Reader Bool := do
  match ← Reader.peek with
  | some 'e' | some 'E' =>
    discard Reader.next
    sign
    guard (isDigitRun Char.isDigit (← digits))
    return true
  | _ => return false

/-- A floating-point number has a fraction or an exponent, or is infinite or no
number at all. -/
def float : Reader Unit := do
  sign
  match ← Reader.peek with
  | some 'i' => Reader.literal "inf".toList
  | some 'n' => Reader.literal "nan".toList
  | _ =>
    guard (isDecimal (← digits))
    let hasFraction ← fraction
    let hasExponent ← exponent
    guard (hasFraction || hasExponent)

/-! ## Dates and times -/

/-- The number that `n` digits spell, where no more follow. -/
def fixed (n : Nat) : Reader Nat := do
  let cs ← Reader.takeWhile Char.isDigit
  guard (cs.length = n)
  return digitsValue cs

/-- The number of days in a month. -/
def daysIn (year month : Nat) : Nat :=
  match month with
  | 2 => if year % 4 = 0 && (year % 100 ≠ 0 || year % 400 = 0) then 29 else 28
  | 4 | 6 | 9 | 11 => 30
  | _ => 31

/-- A day of a year that there is. -/
def date : Reader Unit := do
  let year ← fixed 4
  Reader.literal ['-']
  let month ← fixed 2
  Reader.literal ['-']
  let day ← fixed 2
  guard (1 ≤ month && month ≤ 12 && 1 ≤ day && day ≤ daysIn year month)

/-- Hours and minutes. -/
def clock : Reader Unit := do
  let hour ← fixed 2
  Reader.literal [':']
  let minute ← fixed 2
  guard (hour ≤ 23 && minute ≤ 59)

/-- A time of the day. Seconds and their fraction may be left out, and a leap second
is the sixtieth. -/
def time : Reader Unit := do
  clock
  if ← Reader.eat ':' then
    guard ((← fixed 2) ≤ 60)
    if ← Reader.eat '.' then
      guard !(← Reader.takeWhile Char.isDigit).isEmpty

/-- How far a time is from universal time, if that is told. -/
def offset : Reader Unit := do
  match ← Reader.peek with
  | some 'Z' | some 'z' => discard Reader.next
  | some '+' | some '-' =>
    discard Reader.next
    clock
  | _ => pure ()

/-- A date, or a date and a time of that day. -/
def dateAndTime : Reader Unit := do
  date
  match ← Reader.peek with
  | some 'T' | some 't' | some ' ' =>
    discard Reader.next
    time
    offset
  | _ => pure ()

/-- Whether a word is a floating-point number. -/
def isFloat (word : List Char) : Bool := Reader.acceptsAll float word

/-- Whether a word is a date, a time or both. -/
def isMoment (word : List Char) : Bool :=
  Reader.acceptsAll dateAndTime word || Reader.acceptsAll time word

end Factbase.Scalar
