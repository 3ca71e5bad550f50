import Factbase.Schema.Ty

/-!
# Plans

A plan is a query whose names are resolved and whose parts have types:
every predicate has its version, every variable its number and its type,
and every pattern follows the shape of what it is matched against. Next
to the query itself a plan holds the bodies of all derived predicates
that the query can reach.
-/

namespace Factbase

/-- A primitive function. -/
inductive Prim where
  | toLower
  | toUpper
  | length
deriving DecidableEq, Repr

namespace Prim

def name : Prim → String
  | .toLower => "toLower"
  | .toUpper => "toUpper"
  | .length => "length"

/-- The function of the given name. -/
def named? (name : String) : Option Prim := [toLower, toUpper, length].find? (·.name = name)

theorem named?_name (f : Prim) : named? f.name = some f := by cases f <;> decide

end Prim

/-- A variable with its type. Variables are referred to by their number. -/
structure Variable where
  name : String
  ty : Ty
deriving DecidableEq, Inhabited

/-! ## Matches and expressions -/

/-- A pattern that follows the type of what it is matched against. -/
inductive Match where
  | wild
  /-- The first occurrence of a variable: it takes the value. -/
  | bind (v : Nat)
  /-- A later occurrence: the value must be the same. -/
  | same (v : Nat)
  | lit (value : Value)
  | stringStart (s : String)
  /-- An array of exactly these items. -/
  | array (items : List Match)
  /-- A record with so many fields, some of which must match; they are given by index. -/
  | record (arity : Nat) (fields : List (Nat × Match))
  | alt (index : UInt32) (payload : Match)
  /-- A reference to a fact of a predicate whose key must match. -/
  | deref (p : Predicate) (key : Match)
deriving Inhabited

/-- An expression over variables that have values. -/
inductive Expr where
  | lit (value : Value)
  | var (v : Nat)
  | array (items : List Expr)
  | record (fields : List Expr)
  | alt (index : UInt32) (payload : Expr)
deriving Inhabited

namespace Match

def isWild : Match → Bool
  | .wild => true
  | _ => false

mutual
/-- The expression for the one value that matches, where there is only one given
the variables that have values. A record must name all its fields; of two
patterns for a field the later counts. -/
def expr? : Match → Option Expr
  | .same v => some (.var v)
  | .lit value => some (.lit value)
  | .array items => (exprs? items).map .array
  | .record arity fields => do
    let slots ← fillSlots fields (List.replicate arity none)
    let exprs ← slots.mapM id
    return .record exprs
  | .alt index payload => payload.expr?.map (.alt index)
  | .wild | .bind _ | .stringStart _ | .deref _ _ => none

def exprs? : List Match → Option (List Expr)
  | [] => some []
  | m :: ms => do return (← m.expr?) :: (← exprs? ms)

/-- Put the expressions of fields into the slots of a record. -/
def fillSlots : List (Nat × Match) → List (Option Expr) → Option (List (Option Expr))
  | [], slots => some slots
  | (index, m) :: fields, slots => do
    let e ← m.expr?
    guard (index < slots.length)
    fillSlots fields (slots.set index (some e))
end

end Match

namespace Expr

mutual
/-- The value of an expression without variables. -/
def constant? : Expr → Option Value
  | .lit value => some value
  | .var _ => none
  | .array items => (constants? items).map .array
  | .record fields => (constants? fields).map .record
  | .alt index payload => payload.constant?.map (.alt index)

def constants? : List Expr → Option (List Value)
  | [] => some []
  | e :: es => do return (← e.constant?) :: (← constants? es)
end

end Expr

/-! ## Stages -/

/-- Where a stage draws its candidates from. -/
inductive Supply where
  /-- Facts whose key and value match. -/
  | facts (p : Predicate) (derived : Bool) (key value : Match)
  /-- One fact, and then the other facts of its predicate that have its key. -/
  | factId (id : UInt64)
  | prim (function : Prim) (arg : Expr)
  | expr (e : Expr)
deriving Inhabited

/-- One stage: the candidates that a supply gives and a pattern lets through. -/
structure Stage where
  supply : Supply
  bind : Match
deriving Inhabited

/-- What the last stage yields. -/
inductive Outcome where
  /-- Facts of one predicate. -/
  | fact (p : Predicate)
  /-- A fact of whatever predicate its id names. -/
  | anyFact
  | value (ty : Ty)
deriving DecidableEq, Inhabited

/-- What a source of values of a type yields. -/
def Outcome.ofTy : Ty → Outcome
  | .predicate p => .fact p
  | ty => .value ty

/-- A query, or the body of a derived predicate. -/
structure Body where
  vars : List Variable
  stages : List Stage
  outcome : Outcome
  /-- The paths marked `..`: no fact that is referred to there is expanded. Paths
  into the value of a fact start with `->`. -/
  noExpand : SortedSet (List String)
deriving Inhabited

/-- A query and the bodies of the derived predicates that it can reach. -/
structure Plan where
  main : Body
  derived : SortedMap Predicate Body
deriving Inhabited

/-- The first name on a path into the value of a fact. No field is called that. -/
def valueRoot : String := "->"

/-! ## Listings -/

/-- The name of a variable. -/
def variableName (vars : List Variable) (v : Nat) : String :=
  match vars[v]? with
  | some var => var.name
  | none => "?" ++ toString v

mutual
/-- The text of a match. -/
def Match.render (vars : List Variable) : Match → String
  | .wild => "_"
  | .bind v => variableName vars v
  | .same v => "=" ++ variableName vars v
  | .lit value => value.render
  | .stringStart s => quoted s ++ ".."
  | .array items => "[" ++ ", ".intercalate (Match.renderAll vars items) ++ "]"
  | .record _ fields => "\x7b" ++ ", ".intercalate (Match.renderFields vars fields) ++ "\x7d"
  | .alt index payload => "#" ++ toString index.toNat ++ ":" ++ payload.render vars
  | .deref p key => p.render ++ " " ++ key.render vars

def Match.renderAll (vars : List Variable) : List Match → List String
  | [] => []
  | m :: ms => m.render vars :: Match.renderAll vars ms

def Match.renderFields (vars : List Variable) : List (Nat × Match) → List String
  | [] => []
  | (index, m) :: ms =>
    ("#" ++ toString index ++ " = " ++ m.render vars) :: Match.renderFields vars ms
end

mutual
/-- The text of an expression. -/
def Expr.render (vars : List Variable) : Expr → String
  | .lit value => value.render
  | .var v => variableName vars v
  | .array items => "[" ++ ", ".intercalate (Expr.renderAll vars items) ++ "]"
  | .record fields => "\x7b" ++ ", ".intercalate (Expr.renderAll vars fields) ++ "\x7d"
  | .alt index payload => "#" ++ toString index.toNat ++ ":" ++ payload.render vars

def Expr.renderAll (vars : List Variable) : List Expr → List String
  | [] => []
  | e :: es => e.render vars :: Expr.renderAll vars es
end

def Supply.render (vars : List Variable) : Supply → String
  | .facts p derived key value =>
    p.render ++ (if derived then " (derived)" else "") ++ " " ++ key.render vars ++
      (if value.isWild then "" else " -> " ++ value.render vars)
  | .factId id => "$" ++ toString id.toNat
  | .prim function arg => "prim." ++ function.name ++ " " ++ arg.render vars
  | .expr e => e.render vars

def Stage.render (vars : List Variable) (s : Stage) : String :=
  (if s.bind.isWild then "" else s.bind.render vars ++ " = ") ++ s.supply.render vars

def Outcome.render : Outcome → String
  | .fact p => p.render
  | .anyFact => "fact"
  | .value ty => ty.render

/-- The lines of a body, each behind the given indentation. -/
def Body.lines (indent : String) (b : Body) : List String :=
  b.vars.map (fun v => indent ++ "var " ++ v.name ++ " : " ++ v.ty.render)
    ++ b.stages.mapIdx (fun i s => indent ++ "stage " ++ toString i ++ ": " ++ s.render b.vars)
    ++ [indent ++ "result: " ++ b.outcome.render]

/-- Lines, each of them ended by a line feed. -/
def unlines (lines : List String) : String := String.join (lines.map (· ++ "\n"))

/-- The listing of a plan. -/
def Plan.render (p : Plan) : String :=
  unlines <| "ir:" :: p.main.lines "  " ++
    p.derived.entries.flatMap fun e => ("  derived " ++ e.1.render ++ ":") :: e.2.lines "    "

end Factbase
