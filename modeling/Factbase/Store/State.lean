/-!
# Lifecycle states
-/

namespace Factbase

/-- A store is filled while `building`, read-only once `complete`, and given up
when `incomplete`. -/
inductive StoreState where
  | building
  | complete
  | incomplete
deriving DecidableEq, Repr, Inhabited

namespace StoreState

/-- The number a state is stored as. -/
def code : StoreState → UInt64
  | .building => 0
  | .complete => 1
  | .incomplete => 2

/-- The state that a number stands for; unknown numbers stand for `incomplete`. -/
def ofCode (n : UInt64) : StoreState :=
  if n = 0 then .building else if n = 1 then .complete else .incomplete

theorem ofCode_code (s : StoreState) : ofCode s.code = s := by cases s <;> rfl

def render : StoreState → String
  | .building => "building"
  | .complete => "complete"
  | .incomplete => "incomplete"

end StoreState

end Factbase
