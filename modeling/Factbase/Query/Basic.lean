import Factbase.Text.Quoted

/-!
# Queries

A query is a pipeline of statements; a statement draws results from a
source and may match them against a pattern. Patterns double as
expressions where a value is wanted. Names are not resolved here: a bare
capitalised name may turn out to be a predicate or a variable.
-/

namespace Factbase

/-- A pattern, or an expression where a value is wanted. -/
inductive Pattern where
  | wild
  | var (name : String)
  | nat (n : UInt64)
  | string (s : String)
  | stringStart (s : String)
  | bool (b : Bool)
  | array (items : List Pattern)
  | fields (fields : List (String × Pattern))
  | tuple (items : List Pattern)
  | noExpand (inner : Pattern)
deriving Repr, Inhabited

namespace Pattern

mutual
/-- Structural equality. -/
def beq : Pattern → Pattern → Bool
  | .wild, .wild => true
  | .var a, .var b => a == b
  | .nat a, .nat b => a == b
  | .string a, .string b => a == b
  | .stringStart a, .stringStart b => a == b
  | .bool a, .bool b => a == b
  | .array a, .array b => beqAll a b
  | .fields a, .fields b => beqFields a b
  | .tuple a, .tuple b => beqAll a b
  | .noExpand a, .noExpand b => a.beq b
  | _, _ => false

def beqAll : List Pattern → List Pattern → Bool
  | [], [] => true
  | a :: as, b :: bs => a.beq b && beqAll as bs
  | _, _ => false

def beqFields : List (String × Pattern) → List (String × Pattern) → Bool
  | [], [] => true
  | (n, a) :: as, (m, b) :: bs => n == m && a.beq b && beqFields as bs
  | _, _ => false
end

mutual
theorem beq_iff_eq : (a b : Pattern) → (a.beq b = true ↔ a = b)
  | .wild, b => by cases b <;> simp [beq]
  | .var _, b => by cases b <;> simp [beq]
  | .nat _, b => by cases b <;> simp [beq]
  | .string _, b => by cases b <;> simp [beq]
  | .stringStart _, b => by cases b <;> simp [beq]
  | .bool _, b => by cases b <;> simp [beq]
  | .array as, b => by cases b <;> simp [beq, beqAll_iff_eq as]
  | .fields as, b => by cases b <;> simp [beq, beqFields_iff_eq as]
  | .tuple as, b => by cases b <;> simp [beq, beqAll_iff_eq as]
  | .noExpand a, b => by cases b <;> simp [beq, beq_iff_eq a]

theorem beqAll_iff_eq : (as bs : List Pattern) → (beqAll as bs = true ↔ as = bs)
  | [], bs => by cases bs <;> simp [beqAll]
  | a :: as, bs => by cases bs <;> simp [beqAll, beq_iff_eq a, beqAll_iff_eq as]

theorem beqFields_iff_eq : (as bs : List (String × Pattern)) → (beqFields as bs = true ↔ as = bs)
  | [], bs => by cases bs <;> simp [beqFields]
  | (n, a) :: as, bs => by
    cases bs with
    | nil => simp [beqFields]
    | cons b bs =>
      obtain ⟨m, b⟩ := b
      simp [beqFields, beq_iff_eq a, beqFields_iff_eq as, and_assoc]
end

instance : DecidableEq Pattern := fun a b => decidable_of_iff _ (beq_iff_eq a b)

mutual
/-- The text of a pattern. -/
def render : Pattern → String
  | .wild => "_"
  | .var name => name
  | .nat n => toString n.toNat
  | .string s => quoted s
  | .stringStart s => quoted s ++ ".."
  | .bool b => if b then "true" else "false"
  | .array items => "[" ++ ", ".intercalate (renderAll items) ++ "]"
  | .fields fs => "\x7b " ++ ", ".intercalate (renderFields fs) ++ " \x7d"
  | .tuple items => "\x7b " ++ ", ".intercalate (renderAll items) ++ " \x7d"
  | .noExpand inner => inner.render ++ ".."

def renderAll : List Pattern → List String
  | [] => []
  | p :: ps => p.render :: renderAll ps

def renderFields : List (String × Pattern) → List String
  | [] => []
  | (name, p) :: ps => (name ++ " = " ++ p.render) :: renderFields ps
end

end Pattern

/-- Where a statement draws its results from. -/
inductive Source where
  /-- Facts of a predicate, by key pattern and value pattern. -/
  | predicate (name : String) (version : Option UInt32) (pattern value : Option Pattern)
  /-- A primitive function applied to an expression. -/
  | prim (name : String) (arg : Pattern)
  /-- One fact, by its id. -/
  | factId (id : UInt64)
  /-- The value of an expression. -/
  | expr (pattern : Pattern)
deriving DecidableEq, Repr, Inhabited

/-- The text of a source. -/
def Source.render : Source → String
  | .predicate name version pattern value =>
    let name := match version with
      | some v => name ++ "." ++ toString v.toNat
      | none => name
    match pattern, value with
    | some p, some v => name ++ " " ++ p.render ++ " -> " ++ v.render
    | some p, none => name ++ " " ++ p.render
    | none, some v => name ++ " _ -> " ++ v.render
    | none, none => name
  | .prim name arg => "prim." ++ name ++ " " ++ arg.render
  | .factId id => "$" ++ toString id.toNat
  | .expr pattern => pattern.render

/-- One stage of a pipeline: `[pattern =] source`. -/
structure Statement where
  bind : Option Pattern
  source : Source
deriving DecidableEq, Repr, Inhabited

/-- The text of a statement. -/
def Statement.render (s : Statement) : String :=
  match s.bind with
  | some p => p.render ++ " = " ++ s.source.render
  | none => s.source.render

/-- A pipeline of statements. -/
structure Query where
  statements : List Statement
deriving DecidableEq, Repr, Inhabited

/-- The text of a query. -/
def Query.render (q : Query) : String := "; ".intercalate (q.statements.map Statement.render)

end Factbase
