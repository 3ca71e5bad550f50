/-!
# Binary floating point, by exact arithmetic

Finite floating-point numbers with 53 significant bits, their
construction by rounding a quotient to the nearest (ties to the even
neighbour), and the shortest decimal digits that read back. Every step
is arithmetic on natural numbers.
-/

namespace Factbase

/-- The number `± significand · 2 ^ exponent`. A normal number has
`2 ^ 52 ≤ significand < 2 ^ 53`; a smaller significand stands at the
least exponent only. -/
structure Binary64 where
  negative : Bool
  significand : Nat
  exponent : Int
deriving DecidableEq, Repr

namespace Binary64

/-- The exponent of the least positive number. -/
def leastExponent : Int := -1074

/-- The exponent of the greatest numbers. -/
def greatestExponent : Int := 971

/-- `num / den · 2 ^ (-e)` as a quotient of natural numbers. -/
def scaled (num den : Nat) (e : Int) : Nat × Nat :=
  if e ≥ 0 then (num, den * Nat.pow 2 e.toNat) else (num * Nat.pow 2 (-e).toNat, den)

/-- The integer nearest to `num / den`, a tie going to the even one. -/
def roundEven (num den : Nat) : Nat :=
  let q := num / den
  let twice := 2 * (num % den)
  if twice > den || (twice == den && q % 2 == 1) then q + 1 else q

/-- The exponent at which `num / den` has 53 significant bits, or the least one. -/
def exponentOf (num den : Nat) : Int :=
  let guess := (Nat.log2 num : Int) - Nat.log2 den - 52
  let e := if (scaled num den guess).1 < Nat.pow 2 52 * (scaled num den guess).2 then guess - 1 else guess
  max e leastExponent

/-- The number nearest to `num / den`; none when it is beyond the greatest. -/
def ofRatio? (negative : Bool) (num den : Nat) : Option Binary64 :=
  if num = 0 then some ⟨negative, 0, leastExponent⟩
  else
    let e := exponentOf num den
    let m := roundEven (scaled num den e).1 (scaled num den e).2
    let (m, e) := if m = Nat.pow 2 53 then (Nat.pow 2 52, e + 1) else (m, e)
    if e > greatestExponent then none else some ⟨negative, m, e⟩

/-- The magnitude as a quotient. -/
def ratio (x : Binary64) : Nat × Nat :=
  if x.exponent ≥ 0 then (x.significand * Nat.pow 2 x.exponent.toNat, 1)
  else (x.significand, Nat.pow 2 (-x.exponent).toNat)

/-- The number nearest to the product of the magnitudes. -/
def mul? (x y : Binary64) : Option Binary64 :=
  ofRatio? x.negative (x.ratio.1 * y.ratio.1) (x.ratio.2 * y.ratio.2)

/-- The number nearest to the quotient of the magnitudes. -/
def div? (x y : Binary64) : Option Binary64 :=
  ofRatio? x.negative (x.ratio.1 * y.ratio.2) (x.ratio.2 * y.ratio.1)

/-- The number nearest to a power of ten. -/
def tenTo? (n : Nat) : Option Binary64 := ofRatio? false (Nat.pow 10 n) 1

/-- `significand · 10 ^ exponent`, rounded after the significand, after the
power of ten and after their product or quotient. Exponents below `-308`
are worked off in steps of that size. None when the number is too large. -/
def ofDecimal? (significand : Nat) (exponent : Int) : Option Binary64 := do
  let x ← ofRatio? false significand 1
  if exponent.natAbs ≤ 308 then
    let p ← tenTo? exponent.natAbs
    if exponent ≥ 0 then x.mul? p else x.div? p
  else if x.significand = 0 then return x
  else if exponent ≥ 0 then none
  else
    let p ← tenTo? 308
    let x ← x.div? p
    if exponent ≥ -616 then
      let q ← tenTo? (exponent + 308).natAbs
      x.div? q
    else return ⟨false, 0, leastExponent⟩

/-! ## Shortest digits -/

/-- Four times the ends of the interval of reals that round to `x`, and four
times `x`, all over the common denominator of `scaled`: the lower end is
nearer when `x` is the least number of its exponent. -/
def interval (x : Binary64) : Nat × Nat × Nat :=
  let m := x.significand
  let low := if m = Nat.pow 2 52 && x.exponent > leastExponent then 4 * m - 1 else 4 * m - 2
  (low, 4 * m, 4 * m + 2)

/-- Whether `d · 10 ^ k` rounds to `x`. -/
def readsBack (x : Binary64) (d : Nat) (k : Int) : Bool :=
  let (low, _, high) := x.interval
  -- compare `d · 10 ^ k` with `n / 4 · 2 ^ exponent` by cross multiplication
  let left := 4 * d * (if k ≥ 0 then Nat.pow 10 k.toNat else 1) *
    (if x.exponent ≥ 0 then 1 else Nat.pow 2 (-x.exponent).toNat)
  let unit := (if k ≥ 0 then 1 else Nat.pow 10 (-k).toNat) *
    (if x.exponent ≥ 0 then Nat.pow 2 x.exponent.toNat else 1)
  if x.significand % 2 = 0 then low * unit ≤ left && left ≤ high * unit
  else low * unit < left && left < high * unit

/-- Twice the distance of `d · 10 ^ k` to `x`, over a denominator that depends on `k` only. -/
def distance (x : Binary64) (d : Nat) (k : Int) : Nat :=
  let left := d * (if k ≥ 0 then Nat.pow 10 k.toNat else 1) *
    (if x.exponent ≥ 0 then 1 else Nat.pow 2 (-x.exponent).toNat)
  let right := x.significand * (if k ≥ 0 then 1 else Nat.pow 10 (-k).toNat) *
    (if x.exponent ≥ 0 then Nat.pow 2 x.exponent.toNat else 1)
  if left ≥ right then left - right else right - left

/-- The decimal exponent of the leading digit: `10 ^ p ≤ num / den < 10 ^ (p + 1)`. -/
def leadingPlace (num den : Nat) : Int :=
  if num ≥ den then ((num / den).repr.length : Int) - 1
  else
    let places := ((den - 1) / num).repr.length
    if num * Nat.pow 10 places < den then -(places : Int) - 1 else -(places : Int)

/-- The multiple of `10 ^ k` nearest to `x` among its two neighbours that
read back, the even one on a tie. -/
def onGrid? (x : Binary64) (k : Int) : Option Nat :=
  let (num, den) := x.ratio
  let floor := if k ≥ 0 then num / (den * Nat.pow 10 k.toNat) else num * Nat.pow 10 (-k).toNat / den
  match x.readsBack floor k, x.readsBack (floor + 1) k with
  | false, false => none
  | true, false => some floor
  | false, true => some (floor + 1)
  | true, true =>
    let below := x.distance floor k
    let above := x.distance (floor + 1) k
    if below < above || (below == above && floor % 2 == 0) then some floor else some (floor + 1)

/-- The shortest decimal digits that read back as `x` and the place of the
last one, for a number other than zero. -/
def shortest (x : Binary64) : Nat × Int :=
  let top := leadingPlace x.ratio.1 x.ratio.2
  match (List.range 17).findSome? fun (n : Nat) => (x.onGrid? (top - n)).map fun d => (d, top - (n : Int)) with
  | some found => found
  | none => (x.significand, x.exponent)

/-- Digits without the zeros at their end, and the place of the last one left. -/
def dropZeros : Nat → Nat × Int → Nat × Int
  | 0, dk => dk
  | n + 1, (d, k) => if d ≠ 0 && d % 10 = 0 then dropZeros n (d / 10, k + 1) else (d, k)

/-- How a floating-point number is written: positionally while its leading
place lies between the bounds, else with an exponent. -/
structure Layout where
  leastPlace : Int
  greatestPlace : Int

/-- An exponent, always with its sign. -/
def exponentText (e : Int) : String := (if e < 0 then "e-" else "e+") ++ toString e.natAbs

/-- The text of a number, always with a point or an exponent. -/
def render (layout : Layout) (x : Binary64) : String :=
  let sign := if x.negative then "-" else ""
  if x.significand = 0 then sign ++ "0.0"
  else
    let (d, k) := dropZeros 20 x.shortest
    let digits := (toString d).toList
    let place := k + digits.length - 1
    let zeros (n : Int) : List Char := List.replicate n.toNat '0'
    let body :=
      if place < layout.leastPlace || layout.greatestPlace < place then
        match digits with
        | [c] => String.singleton c ++ exponentText place
        | c :: rest => String.ofList (c :: '.' :: rest) ++ exponentText place
        | [] => ""
      else if place < 0 then String.ofList ('0' :: '.' :: zeros (-place - 1) ++ digits)
      else if k ≥ 0 then String.ofList (digits ++ zeros k ++ ['.', '0'])
      else String.ofList (digits.take (place + 1).toNat ++ '.' :: digits.drop (place + 1).toNat)
    sign ++ body

end Binary64

end Factbase
