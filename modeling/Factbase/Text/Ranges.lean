/-!
# Character ranges

A property of characters given by the inclusive ranges of code points
that have it.
-/

namespace Factbase

/-- Whether `n` lies in one of the inclusive ranges. -/
def inRanges (ranges : List (Nat × Nat)) (n : Nat) : Bool :=
  ranges.any fun r => r.1 ≤ n && n ≤ r.2

end Factbase
