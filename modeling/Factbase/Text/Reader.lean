/-!
# Readers of texts

A reader takes something off the front of a text, or refuses the text.
There is a single way to fail, so a reader only says whether a text is
acceptable and what it means.
-/

namespace Factbase

/-- A reader takes something off the front of a text, or refuses it. -/
abbrev Reader (α : Type) := StateT (List Char) Option α

namespace Reader

/-- The next character, left where it is. -/
def peek : Reader (Option Char) := do return (← get).head?

/-- The next character. -/
def next : Reader Char := fun
  | [] => none
  | c :: rest => some (c, rest)

/-- Take `c` if it comes next. -/
def eat (c : Char) : Reader Bool := fun
  | d :: rest => some (if c = d then (true, rest) else (false, d :: rest))
  | [] => some (false, [])

/-- Take the given characters. -/
def literal (cs : List Char) : Reader Unit := cs.forM fun c => do
  guard (← eat c)

/-- The characters up to the first that does not satisfy `p`. -/
def takeWhile (p : Char → Bool) : Reader (List Char) := fun cs =>
  some (cs.takeWhile p, cs.dropWhile p)

/-- The value of a hexadecimal digit. -/
def hexValue? (c : Char) : Option Nat :=
  if '0' ≤ c && c ≤ '9' then some (c.toNat - 48)
  else if 'a' ≤ c && c ≤ 'f' then some (c.toNat - 87)
  else if 'A' ≤ c && c ≤ 'F' then some (c.toNat - 55)
  else none

/-- The number that `n` hexadecimal digits spell, after those that spell `above`. -/
def hexNumber (above : Nat) : Nat → Reader Nat
  | 0 => return above
  | n + 1 => do hexNumber (16 * above + (← hexValue? (← next))) n

/-- Whether a reader takes a text to its end. -/
def acceptsAll {α : Type} (r : Reader α) (cs : List Char) : Bool :=
  match r.run cs with
  | some (_, []) => true
  | _ => false

end Reader

end Factbase
