import Factbase.Query.Program
import Factbase.Query.Typing

/-!
# Compiling plans

Every stage of a plan becomes a block. The number of the next register
that is free is passed along: a function that emits code takes it and
returns the next one that is free after the code. Each block starts
again above the variables, since only variables live longer than a
block.

A predicate whose key is wholly determined by variables that have values
is sought by that key; any other one is scanned, and its facts are
tested part by part.
-/

namespace Factbase

/-! ## Matches -/

mutual
/-- Code that tests the value in a register against a match. -/
def Match.code (src : Nat) (m : Match) (next : Nat) : List Instr × Nat :=
  match m with
  | .wild => ([], next)
  | .bind v => (if v = src then [] else [.move src v], next)
  | .same v => ([.eqReg src v], next)
  | .lit value => ([.eqConst src value], next)
  | .stringStart s => ([.startsWith src s], next)
  | .array items =>
    let (code, next) := Match.codeItems src 0 items next
    (.arrayLen src items.length :: code, next)
  | .record _ fields => Match.codeFields src fields next
  | .alt index payload =>
    let (code, after) := payload.code next (next + 1)
    (.alt src index next :: code, after)
  | .deref p key =>
    if key.isWild then ([.deref src p next], next + 1)
    else
      let (code, after) := key.code (next + 1) (next + 2)
      (.deref src p next :: .key next (next + 1) :: code, after)

/-- Code that tests the items of the array in a register, the first at index `i`. -/
def Match.codeItems (src i : Nat) (items : List Match) (next : Nat) : List Instr × Nat :=
  match items with
  | [] => ([], next)
  | m :: ms =>
    if m.isWild then Match.codeItems src (i + 1) ms next
    else
      let (code, after) := m.code next (next + 1)
      let (rest, after) := Match.codeItems src (i + 1) ms after
      (.elem src i next :: code ++ rest, after)

/-- Code that tests fields of the record in a register. -/
def Match.codeFields (src : Nat) (fields : List (Nat × Match)) (next : Nat) : List Instr × Nat :=
  match fields with
  | [] => ([], next)
  | (i, m) :: ms =>
    if m.isWild then Match.codeFields src ms next
    else
      let (code, after) := m.code next (next + 1)
      let (rest, after) := Match.codeFields src ms after
      (.field src i next :: code ++ rest, after)
end

/-- Code that tests the key of the fact loaded in a register. -/
def Match.codeKey (fact : Nat) (key : Match) (next : Nat) : List Instr × Nat :=
  if key.isWild then ([], next)
  else
    let (code, after) := key.code next (next + 1)
    (.key fact next :: code, after)

/-- Code that tests the value of the fact loaded in a register. -/
def Match.codeValue (fact : Nat) (value : Match) (next : Nat) : List Instr × Nat :=
  if value.isWild then ([], next)
  else
    let (code, after) := value.code next (next + 1)
    (.value fact next :: code, after)

/-! ## Expressions -/

mutual
/-- Code that computes an expression, and the register that has its value. -/
def Expr.code (e : Expr) (next : Nat) : List Instr × Nat × Nat :=
  match e with
  | .var v => ([], v, next)
  | .lit value => ([.const value next], next, next + 1)
  | .array items =>
    let (code, regs, next) := Expr.codeAll items next
    (code ++ [.makeArray regs next], next, next + 1)
  | .record fields =>
    let (code, regs, next) := Expr.codeAll fields next
    (code ++ [.makeRecord regs next], next, next + 1)
  | .alt index payload =>
    let (code, src, next) := payload.code next
    (code ++ [.makeAlt index src next], next, next + 1)

def Expr.codeAll (es : List Expr) (next : Nat) : List Instr × List Nat × Nat :=
  match es with
  | [] => ([], [], next)
  | e :: es =>
    let (code, reg, next) := e.code next
    let (rest, regs, next) := Expr.codeAll es next
    (code ++ rest, reg :: regs, next)
end

/-! ## Stages -/

/-- Code that draws candidates from a supply, and the register that has them. -/
def Supply.code (s : Supply) (next : Nat) : List Instr × Nat × Nat :=
  match s with
  | .facts p true key _ =>
    let (test, after) := key.codeKey next (next + 1)
    (.derive p next :: test, next, after)
  | .facts p false key value =>
    match key.expr? with
    | some e =>
      match e.constant? with
      | some v =>
        let (test, after) := value.codeValue next (next + 1)
        (.seek p (.const v) next :: test, next, after)
      | none =>
        let (code, r, next) := e.code next
        let (test, after) := value.codeValue next (next + 1)
        (code ++ .seek p (.reg r) next :: test, next, after)
    | none =>
      let (testKey, after) := key.codeKey next (next + 1)
      let (testValue, after) := value.codeValue next after
      (.scan p next :: testKey ++ testValue, next, after)
  | .factId id => ([.load ⟨id⟩ next], next, next + 1)
  | .prim function arg =>
    let (code, r, next) := arg.code next
    (code ++ [.prim function r next], next, next + 1)
  | .expr e => e.code next

/-- Code of a stage up to its end, and the register that has its candidate. -/
def Stage.code (s : Stage) (next : Nat) : List Instr × Nat × Nat :=
  let (draw, out, next) := s.supply.code next
  let (test, next) := s.bind.code out next
  (draw ++ test, out, next)

/-! ## Variables -/

mutual
/-- The variables that a match binds. -/
def Match.binds : Match → List Nat
  | .bind v => [v]
  | .array items => Match.bindsAll items
  | .record _ fields => Match.bindsFields fields
  | .alt _ payload => payload.binds
  | .deref _ key => key.binds
  | .wild | .same _ | .lit _ | .stringStart _ => []

def Match.bindsAll : List Match → List Nat
  | [] => []
  | m :: ms => m.binds ++ Match.bindsAll ms

def Match.bindsFields : List (Nat × Match) → List Nat
  | [] => []
  | (_, m) :: ms => m.binds ++ Match.bindsFields ms
end

mutual
/-- The variables that a match mentions. -/
def Match.mentions : Match → List Nat
  | .bind v | .same v => [v]
  | .array items => Match.mentionsAll items
  | .record _ fields => Match.mentionsFields fields
  | .alt _ payload => payload.mentions
  | .deref _ key => key.mentions
  | .wild | .lit _ | .stringStart _ => []

def Match.mentionsAll : List Match → List Nat
  | [] => []
  | m :: ms => m.mentions ++ Match.mentionsAll ms

def Match.mentionsFields : List (Nat × Match) → List Nat
  | [] => []
  | (_, m) :: ms => m.mentions ++ Match.mentionsFields ms
end

mutual
/-- The variables that an expression mentions. -/
def Expr.mentions : Expr → List Nat
  | .var v => [v]
  | .array items | .record items => Expr.mentionsAll items
  | .alt _ payload => payload.mentions
  | .lit _ => []

def Expr.mentionsAll : List Expr → List Nat
  | [] => []
  | e :: es => e.mentions ++ Expr.mentionsAll es
end

/-- The variables that a stage binds. -/
def Stage.binds (s : Stage) : List Nat :=
  match s.supply with
  | .facts _ _ key value => key.binds ++ value.binds ++ s.bind.binds
  | .factId _ | .prim _ _ | .expr _ => s.bind.binds

/-- The variables that a stage mentions. -/
def Stage.mentions (s : Stage) : List Nat :=
  match s.supply with
  | .facts _ _ key value => key.mentions ++ value.mentions ++ s.bind.mentions
  | .prim _ e | .expr e => e.mentions ++ s.bind.mentions
  | .factId _ => s.bind.mentions

/-- Of `n` variables, those that one of the first stages binds and one of the
others mentions. -/
def liveBetween (n : Nat) (before after : List Stage) : List Nat :=
  (List.range n).filter fun v =>
    before.any (·.binds.contains v) && after.any (·.mentions.contains v)

/-! ## Predicates -/

mutual
/-- The predicates whose facts a match follows references to. -/
def Match.touches : Match → List Predicate
  | .deref p key => p :: key.touches
  | .array items => Match.touchesAll items
  | .record _ fields => Match.touchesFields fields
  | .alt _ payload => payload.touches
  | .wild | .bind _ | .same _ | .lit _ | .stringStart _ => []

def Match.touchesAll : List Match → List Predicate
  | [] => []
  | m :: ms => m.touches ++ Match.touchesAll ms

def Match.touchesFields : List (Nat × Match) → List Predicate
  | [] => []
  | (_, m) :: ms => m.touches ++ Match.touchesFields ms
end

/-- The predicates whose facts the code of a stage reads. Derived facts have no
value to be matched. -/
def Stage.touches (s : Stage) : List Predicate :=
  match s.supply with
  | .facts _ true key _ => key.touches ++ s.bind.touches
  | .facts p false key value => p :: key.touches ++ value.touches ++ s.bind.touches
  | .factId _ | .prim _ _ | .expr _ => s.bind.touches

/-! ## Bodies -/

/-- The blocks of stages, the last of which yields, and the number of registers
that they need. -/
def blocksOf (n : Nat) (before : List Stage) : List Stage → List (List Instr) × Nat
  | [] => ([], n)
  | [s] =>
    let (code, out, next) := s.code n
    ([code ++ [.emit out]], next)
  | s :: rest =>
    let (code, _, next) := s.code n
    let (blocks, registers) := blocksOf n (before ++ [s]) rest
    ((code ++ [.barrier (liveBetween n (before ++ [s]) rest)]) :: blocks, max next registers)

/-- The code of a body. -/
def Body.compile (b : Body) : Code :=
  let (blocks, registers) := blocksOf b.vars.length [] b.stages
  ⟨registers, blocks, .ofList (b.stages.flatMap Stage.touches)⟩

/-- The program of a plan. -/
def Plan.compile (p : Plan) : Program :=
  ⟨p.main.compile, p.derived.map fun _ body => body.compile⟩

/-! ## Compiled queries -/

/-- Which schema a query is read under. -/
inductive SchemaMode where
  /-- The one that is current. Facts stored under another one are converted. -/
  | current
  /-- The one that the facts were stored under. -/
  | stored
deriving DecidableEq, Repr, Inhabited

namespace SchemaMode

def render : SchemaMode → String
  | .current => "current"
  | .stored => "stored"

def read (text : String) : Except TypeFault SchemaMode :=
  if text = "current" then .ok .current
  else if text = "stored" then .ok .stored
  else .error (.unknownMode text)

theorem read_render (m : SchemaMode) : read m.render = .ok m := by cases m <;> rfl

end SchemaMode

/-- A query that has been compiled. It keeps the schema it was compiled for, so
that a later change of schemas does not change what it means. -/
structure CompiledQuery where
  schema : Schema
  mode : SchemaMode
  plan : Plan
  program : Program
deriving Inhabited

/-- Compile the query that a text spells. -/
def CompiledQuery.ofText (text : String) (schema : Schema) (mode : SchemaMode) :
    Except Error CompiledQuery := do
  let query ← (Query.read text).mapError .source
  let plan ← query.typed schema
  return ⟨schema, mode, plan, plan.compile⟩

end Factbase
