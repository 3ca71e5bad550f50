import Factbase.Value

/-!
# Types

The resolved types of keys and values. Records and sums list their
fields in order, by name; a field may declare a default. Aliases and the
short forms for optional values and enumerations are expanded.
-/

namespace Factbase

mutual
/-- A named field of a record, or an alternative of a sum. -/
structure Field where
  name : String
  ty : Ty
  /-- The default that was declared. -/
  declared : Option Value

/-- A type. -/
inductive Ty where
  | byte
  | nat
  | bool
  | string
  | array (elem : Ty)
  | record (fields : List Field)
  | sum (alts : List Field)
  | predicate (p : Predicate)
end

instance : Inhabited Ty := ⟨.nat⟩

instance : Inhabited Field := ⟨⟨"", .nat, none⟩⟩

namespace Ty

mutual
/-- Structural equality. -/
def beq : Ty → Ty → Bool
  | .byte, .byte => true
  | .nat, .nat => true
  | .bool, .bool => true
  | .string, .string => true
  | .array a, .array b => a.beq b
  | .record a, .record b => beqFields a b
  | .sum a, .sum b => beqFields a b
  | .predicate p, .predicate q => p == q
  | _, _ => false

def beqFields : List Field → List Field → Bool
  | [], [] => true
  | ⟨n, a, d⟩ :: as, ⟨m, b, e⟩ :: bs => n == m && a.beq b && d == e && beqFields as bs
  | _, _ => false
end

mutual
theorem beq_iff_eq : (a b : Ty) → (a.beq b = true ↔ a = b)
  | .byte, b => by cases b <;> simp [beq]
  | .nat, b => by cases b <;> simp [beq]
  | .bool, b => by cases b <;> simp [beq]
  | .string, b => by cases b <;> simp [beq]
  | .array a, b => by cases b <;> simp [beq, beq_iff_eq a]
  | .record as, b => by cases b <;> simp [beq, beqFields_iff_eq as]
  | .sum as, b => by cases b <;> simp [beq, beqFields_iff_eq as]
  | .predicate _, b => by cases b <;> simp [beq]

theorem beqFields_iff_eq : (as bs : List Field) → (beqFields as bs = true ↔ as = bs)
  | [], bs => by cases bs <;> simp [beqFields]
  | ⟨n, a, d⟩ :: as, bs => by
    cases bs with
    | nil => simp [beqFields]
    | cons b bs =>
      obtain ⟨m, b, e⟩ := b
      simp [beqFields, beq_iff_eq a, beqFields_iff_eq as, and_assoc]
end

instance : DecidableEq Ty := fun a b => decidable_of_iff _ (beq_iff_eq a b)

/-- The type of the value with nothing in it. -/
def unit : Ty := .record []

def isUnit : Ty → Bool
  | .record [] => true
  | _ => false

mutual
/-- The zero value of a type. References have none. -/
def zero? : Ty → Option Value
  | .byte => some (.byte 0)
  | .nat => some (.nat 0)
  | .bool => some (.bool false)
  | .string => some (.string "")
  | .array _ => some (.array [])
  | .record fields => (defaults? fields).map .record
  | .sum [] => none
  | .sum (⟨_, ty, _⟩ :: _) => ty.zero?.map (.alt 0)
  | .predicate _ => none

/-- The declared default or else the zero value of every field. -/
def defaults? : List Field → Option (List Value)
  | [] => some []
  | ⟨_, ty, declared⟩ :: fields => do
    let v ← declared <|> ty.zero?
    let vs ← defaults? fields
    return v :: vs
end

mutual
/-- The text of a type. -/
def render : Ty → String
  | .byte => "byte"
  | .nat => "nat"
  | .bool => "bool"
  | .string => "string"
  | .array elem => "[" ++ elem.render ++ "]"
  | .record [] => "\x7b\x7d"
  | .record fields => "\x7b " ++ ", ".intercalate (renderFields fields) ++ " \x7d"
  | .sum alts => "\x7b " ++ " | ".intercalate (renderFields alts) ++ " \x7d"
  | .predicate p => p.render

def renderFields : List Field → List String
  | [] => []
  | ⟨name, ty, declared⟩ :: fields =>
    let default := match declared with
      | some v => " = " ++ v.render
      | none => ""
    (name ++ " : " ++ ty.render ++ default) :: renderFields fields
end

mutual
/-- The predicates that a type refers to. -/
def predicates : Ty → List Predicate
  | .predicate p => [p]
  | .array elem => elem.predicates
  | .record fields => predicatesOf fields
  | .sum alts => predicatesOf alts
  | .byte | .nat | .bool | .string => []

def predicatesOf : List Field → List Predicate
  | [] => []
  | ⟨_, ty, _⟩ :: fields => ty.predicates ++ predicatesOf fields
end

mutual
/-- Whether values of two types can be compared: they have the same shape and
the same names; versions of references and defaults do not matter. -/
def compatible : Ty → Ty → Bool
  | .predicate p, .predicate q => p.name == q.name
  | .array a, .array b => a.compatible b
  | .record a, .record b => compatibleFields a b
  | .sum a, .sum b => compatibleFields a b
  | .byte, .byte => true
  | .nat, .nat => true
  | .bool, .bool => true
  | .string, .string => true
  | _, _ => false

def compatibleFields : List Field → List Field → Bool
  | [], [] => true
  | ⟨n, a, _⟩ :: as, ⟨m, b, _⟩ :: bs => n == m && a.compatible b && compatibleFields as bs
  | _, _ => false
end

end Ty

instance : DecidableEq Field := fun f g =>
  decidable_of_iff (f.name = g.name ∧ f.ty = g.ty ∧ f.declared = g.declared) <| by
    cases f; cases g; simp

namespace Field

/-- A field without a declared default. -/
def plain (name : String) (ty : Ty) : Field := ⟨name, ty, none⟩

/-- What stands in for a missing field: the declared default, or the zero value. -/
def default? (f : Field) : Option Value := f.declared <|> f.ty.zero?

end Field

/-- The first field of the given name, with its index. -/
def Field.locate? (name : String) (fields : List Field) : Option (Nat × Field) :=
  match fields with
  | [] => none
  | f :: rest =>
    if f.name = name then some (0, f)
    else (Field.locate? name rest).map fun found => (found.1 + 1, found.2)

/-! ## Conformance -/

/-- Why a value is not of a type: the type that was expected and the shape
that was found. -/
structure Nonconformity where
  expected : Ty
  found : String
deriving DecidableEq

namespace Ty

mutual
/-- Check that a value is of a type. References are checked for being
references; whose facts they name is for the caller to check. -/
def check (ty : Ty) (v : Value) : Except Nonconformity Unit :=
  match ty, v with
  | .byte, .byte _ => .ok ()
  | .nat, .nat _ => .ok ()
  | .bool, .bool _ => .ok ()
  | .string, .string _ => .ok ()
  | .predicate _, .fact _ => .ok ()
  | .array elem, .array items => checkItems elem items
  | .record fields, .record values =>
    if fields.length = values.length then checkFields fields values
    else .error ⟨.record fields, "record"⟩
  | .sum alts, .alt index payload =>
    match alts[index.toNat]? with
    | some alt => alt.ty.check payload
    | none => .error ⟨.sum alts, "alternative"⟩
  | ty, v => .error ⟨ty, v.kind⟩

def checkItems (elem : Ty) (items : List Value) : Except Nonconformity Unit :=
  match items with
  | [] => .ok ()
  | v :: vs => do
    elem.check v
    checkItems elem vs

def checkFields (fields : List Field) (values : List Value) : Except Nonconformity Unit :=
  match values, fields with
  | v :: vs, f :: fs => do
    f.ty.check v
    checkFields fs vs
  | _, _ => .ok ()
end

/-- `v` is a value of type `ty`. -/
def Conforms (ty : Ty) (v : Value) : Prop := ty.check v = .ok ()

instance (ty : Ty) (v : Value) : Decidable (ty.Conforms v) :=
  match h : ty.check v with
  | .ok () => isTrue h
  | .error e => isFalse fun h' => by rw [Conforms, h] at h'; cases h'

end Ty

end Factbase
