import Factbase.SortedMap
import Factbase.Text.Numeral
import Factbase.Text.Quoted

/-!
# Facts and their values

Fact ids, versioned predicate names, the structured values that keys and
values are made of, and facts themselves.

Records are positional: field names live in the type, not in the value.
A sum carries the index of its alternative. A reference to another fact
is that fact's id.
-/

namespace Factbase

/-! ## Identifiers -/

/-- The identifier of a fact within one store. -/
structure FactId where
  number : UInt64
deriving DecidableEq, Repr, Inhabited

namespace FactId

instance : Ord FactId := ⟨compareOn number⟩

instance : Std.TransOrd FactId := inferInstanceAs (Std.TransCmp (compareOn number))

instance : Std.LawfulEqOrd FactId where
  eq_of_compare {a b} h := by
    have h : compare a.number b.number = .eq := h
    cases a; cases b; simpa using h

/-- The id that the first fact of a store receives. -/
def first : FactId := ⟨1024⟩

/-- The id after this one; the largest id is its own successor. -/
def next (id : FactId) : FactId :=
  if id.number = UInt64.ofNat (2 ^ 64 - 1) then id else ⟨id.number + 1⟩

def render (id : FactId) : String := toString id.number.toNat

end FactId

/-- A versioned predicate name, such as `example.Class` at version 1. -/
structure Predicate where
  name : String
  version : UInt32
deriving DecidableEq, Repr, Inhabited

namespace Predicate

instance : Ord Predicate := ⟨compareLex (compareOn name) (compareOn version)⟩

instance : Std.TransOrd Predicate :=
  inferInstanceAs (Std.TransCmp (compareLex (compareOn name) (compareOn version)))

instance : Std.LawfulEqOrd Predicate where
  eq_of_compare {a b} h := by
    have h : (compareOn name a b).then (compareOn version a b) = .eq := h
    simp only [Ordering.then_eq_eq, compareOn, Std.LawfulEqOrd.compare_eq_iff_eq] at h
    cases a; cases b; simp_all

/-- `name.version` -/
def render (p : Predicate) : String := p.name ++ "." ++ toString p.version.toNat

/-- The predicate that `name.version` names, when the last segment is a version. -/
def read? (text : String) : Option Predicate :=
  match splitVersion text with
  | (name, some version) => some ⟨name, version⟩
  | (_, none) => none

end Predicate

/-! ## Values -/

/-- A structured value. -/
inductive Value where
  | byte (n : UInt8)
  | nat (n : UInt64)
  | bool (b : Bool)
  | string (s : String)
  | array (items : List Value)
  | record (fields : List Value)
  | alt (index : UInt32) (payload : Value)
  | fact (id : FactId)
deriving Repr, Inhabited

namespace Value

mutual
/-- Structural equality. -/
def beq : Value → Value → Bool
  | .byte a, .byte b => a == b
  | .nat a, .nat b => a == b
  | .bool a, .bool b => a == b
  | .string a, .string b => a == b
  | .array a, .array b => beqAll a b
  | .record a, .record b => beqAll a b
  | .alt i a, .alt j b => i == j && a.beq b
  | .fact a, .fact b => a == b
  | _, _ => false

/-- Structural equality of lists, item by item. -/
def beqAll : List Value → List Value → Bool
  | [], [] => true
  | a :: as, b :: bs => a.beq b && beqAll as bs
  | _, _ => false
end

mutual
theorem beq_iff_eq : (a b : Value) → (a.beq b = true ↔ a = b)
  | .byte _, b => by cases b <;> simp [beq]
  | .nat _, b => by cases b <;> simp [beq]
  | .bool _, b => by cases b <;> simp [beq]
  | .string _, b => by cases b <;> simp [beq]
  | .array as, b => by cases b <;> simp [beq, beqAll_iff_eq as]
  | .record as, b => by cases b <;> simp [beq, beqAll_iff_eq as]
  | .alt _ a, b => by cases b <;> simp [beq, beq_iff_eq a]
  | .fact _, b => by cases b <;> simp [beq]

theorem beqAll_iff_eq : (as bs : List Value) → (beqAll as bs = true ↔ as = bs)
  | [], bs => by cases bs <;> simp [beqAll]
  | a :: as, bs => by cases bs <;> simp [beqAll, beq_iff_eq a, beqAll_iff_eq as]
end

instance : DecidableEq Value := fun a b => decidable_of_iff _ (beq_iff_eq a b)

/-- The value with nothing in it. -/
def unit : Value := .record []

def isUnit : Value → Bool
  | .record [] => true
  | _ => false

/-- The shape of a value, as error messages name it. -/
def kind : Value → String
  | .byte _ => "byte"
  | .nat _ => "nat"
  | .bool _ => "bool"
  | .string _ => "string"
  | .array _ => "array"
  | .record _ => "record"
  | .alt _ _ => "alternative"
  | .fact _ => "fact"

mutual
/-- The facts a value refers to, in the order they stand in it. -/
def references : Value → List FactId
  | .fact id => [id]
  | .array items => referencesAll items
  | .record fields => referencesAll fields
  | .alt _ payload => payload.references
  | .byte _ | .nat _ | .bool _ | .string _ => []

/-- The facts the values of a list refer to. -/
def referencesAll : List Value → List FactId
  | [] => []
  | v :: vs => v.references ++ referencesAll vs
end

mutual
/-- The text of a value: `"s"`, `[a, b]`, `{a, b}`, `#1(x)`, `$1024`. -/
def render : Value → String
  | .byte n => toString n.toNat
  | .nat n => toString n.toNat
  | .bool b => if b then "true" else "false"
  | .string s => quoted s
  | .array items => "[" ++ ", ".intercalate (renderAll items) ++ "]"
  | .record fields => "\x7b" ++ ", ".intercalate (renderAll fields) ++ "\x7d"
  | .alt index payload => "#" ++ toString index.toNat ++ "(" ++ payload.render ++ ")"
  | .fact id => "$" ++ id.render

/-- The texts of the values of a list. -/
def renderAll : List Value → List String
  | [] => []
  | v :: vs => v.render :: renderAll vs
end

end Value

/-! ## Facts -/

/-- An immutable fact. Its value is the unit value when the predicate has
keys only. -/
structure Fact where
  id : FactId
  predicate : Predicate
  key : Value
  value : Value
deriving DecidableEq, Repr, Inhabited

namespace Fact

/-- The value, unless it is the unit value. -/
def value? (f : Fact) : Option Value := if f.value.isUnit then none else some f.value

/-- The facts that key and value refer to. -/
def references (f : Fact) : List FactId := f.key.references ++ f.value.references

end Fact

end Factbase
