import Factbase.Value

/-!
# Statistics and profiles

Counters by predicate: how many facts a store holds and how large they
are, and how many facts a query looked at. Counters stop at the largest
number of 64 bits.
-/

namespace Factbase

/-- A sum that stops at the largest number of 64 bits. -/
def addUpTo64 (a b : Nat) : Nat := min (a + b) (2 ^ 64 - 1)

/-- A number of facts and the length of their encodings. -/
structure Tally where
  count : Nat
  bytes : Nat
deriving DecidableEq, Repr, Inhabited

namespace Tally

def zero : Tally := ⟨0, 0⟩

def add (a b : Tally) : Tally := ⟨addUpTo64 a.count b.count, addUpTo64 a.bytes b.bytes⟩

end Tally

/-- What a store holds, by predicate. -/
structure Statistics where
  tallies : SortedMap Predicate Tally
deriving DecidableEq

namespace Statistics

def empty : Statistics := ⟨∅⟩

instance : Inhabited Statistics := ⟨empty⟩

/-- One more fact with an encoding of the given length. -/
def record (s : Statistics) (p : Predicate) (bytes : Nat) : Statistics :=
  ⟨s.tallies.update p .zero fun t => t.add ⟨1, bytes⟩⟩

/-- The tally of all predicates together. -/
def total (s : Statistics) : Tally := s.tallies.values.foldl Tally.add .zero

/-- The lines of one predicate. -/
def entryText (e : Predicate × Tally) : String :=
  e.1.render ++ "\n  count: " ++ toString e.2.count ++ "\n  size:  " ++ toString e.2.bytes ++ "\n"

/-- The statistics as a text. The total is given in kiB with one decimal, halves
rounded up. -/
def render (s : Statistics) : String :=
  let total := s.total
  let tenths := addUpTo64 (min (total.bytes * 10) (2 ^ 64 - 1)) 512 / 1024
  String.join (s.tallies.entries.map entryText) ++ "Total: " ++ toString total.count ++
    " facts (" ++ toString (tenths / 10) ++ "." ++ toString (tenths % 10) ++ " kiB)"

end Statistics

/-- How many facts of each predicate a query looked at. -/
structure Profile where
  counts : SortedMap Predicate Nat
deriving DecidableEq

namespace Profile

def empty : Profile := ⟨∅⟩

instance : Inhabited Profile := ⟨empty⟩

/-- One more fact. -/
def record (f : Profile) (p : Predicate) : Profile :=
  ⟨f.counts.update p 0 fun n => addUpTo64 n 1⟩

/-- The number of facts of all predicates together. -/
def total (f : Profile) : Nat := f.counts.values.foldl addUpTo64 0

def render (f : Profile) : String :=
  "\n".intercalate (f.counts.entries.map fun e => e.1.render ++ " : " ++ toString e.2)

end Profile

end Factbase
