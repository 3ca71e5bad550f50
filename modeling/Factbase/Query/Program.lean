import Factbase.Query.Plan

/-!
# Programs

The code of a query: one block of instructions for each stage, over
registers that hold values. Variable number `v` lives in register `v`;
the registers above the variables hold intermediate values, and a
register may also have a fact loaded.

A source instruction runs the rest of its block once for every
candidate. A test that fails gives up the candidate. A block ends with a
barrier, which hands registers over to the next block, or yields a
result.
-/

namespace Factbase

/-- The key that facts are sought by: a constant, or what a register holds. -/
inductive Operand where
  | const (value : Value)
  | reg (r : Nat)
deriving DecidableEq, Repr

inductive Instr where
  -- sources
  /-- All facts of a predicate. -/
  | scan (p : Predicate) (dst : Nat)
  /-- The facts of a predicate that have a key. -/
  | seek (p : Predicate) (key : Operand) (dst : Nat)
  /-- A fact, then the others of its predicate that have its key. -/
  | load (id : FactId) (dst : Nat)
  /-- All facts of a derived predicate. -/
  | derive (p : Predicate) (dst : Nat)
  -- facts
  /-- Load the fact that a register refers to; fails where it cannot be read. -/
  | deref (src : Nat) (p : Predicate) (dst : Nat)
  | key (src dst : Nat)
  | value (src dst : Nat)
  -- parts
  | field (src index dst : Nat)
  /-- The payload of an alternative; fails on any other one. -/
  | alt (src : Nat) (index : UInt32) (dst : Nat)
  /-- Fails unless the array has so many items. -/
  | arrayLen (src len : Nat)
  | elem (src index dst : Nat)
  -- tests
  | eqConst (src : Nat) (value : Value)
  | startsWith (src : Nat) (s : String)
  | eqReg (a b : Nat)
  -- construction
  | move (src dst : Nat)
  | const (value : Value) (dst : Nat)
  | makeArray (items : List Nat) (dst : Nat)
  | makeRecord (fields : List Nat) (dst : Nat)
  | makeAlt (index : UInt32) (src dst : Nat)
  | prim (function : Prim) (src dst : Nat)
  -- ends
  /-- Hand over to the next block; `keep` are the registers that count. -/
  | barrier (keep : List Nat)
  | emit (src : Nat)
deriving DecidableEq, Repr

/-- The code of a query, or of the body of a derived predicate. -/
structure Code where
  registers : Nat
  blocks : List (List Instr)
  /-- The stored predicates whose facts are read. -/
  touches : SortedSet Predicate
deriving Inhabited

/-- The code of a query and of the derived predicates that it can reach. -/
structure Program where
  main : Code
  derived : SortedMap Predicate Code
deriving Inhabited

/-! ## Listings -/

/-- The name of a register. -/
def registerName (r : Nat) : String := "r" ++ toString r

def Operand.render : Operand → String
  | .const value => value.render
  | .reg r => registerName r

/-- ` -> r` -/
def intoText (dst : Nat) : String := " -> " ++ registerName dst

def registerList (rs : List Nat) : String := ", ".intercalate (rs.map registerName)

/-- The text of an instruction. -/
def Instr.render : Instr → String
  | .scan p dst => "scan " ++ p.render ++ intoText dst
  | .seek p k dst => "seek " ++ p.render ++ " " ++ k.render ++ intoText dst
  | .load id dst => "load $" ++ id.render ++ intoText dst
  | .derive p dst => "derive " ++ p.render ++ intoText dst
  | .deref src p dst => "deref " ++ registerName src ++ " as " ++ p.render ++ intoText dst
  | .key src dst => "key " ++ registerName src ++ intoText dst
  | .value src dst => "value " ++ registerName src ++ intoText dst
  | .field src index dst => "field " ++ registerName src ++ "." ++ toString index ++ intoText dst
  | .alt src index dst =>
    "alt " ++ registerName src ++ "#" ++ toString index.toNat ++ intoText dst
  | .arrayLen src len => "arraylen " ++ registerName src ++ " == " ++ toString len
  | .elem src index dst =>
    "elem " ++ registerName src ++ "[" ++ toString index ++ "]" ++ intoText dst
  | .eqConst src v => "eq " ++ registerName src ++ " " ++ v.render
  | .startsWith src s => "prefix " ++ registerName src ++ " " ++ quoted s
  | .eqReg a b => "eq " ++ registerName a ++ " " ++ registerName b
  | .move src dst => "move " ++ registerName src ++ intoText dst
  | .const v dst => "const " ++ v.render ++ intoText dst
  | .makeArray items dst => "array [" ++ registerList items ++ "]" ++ intoText dst
  | .makeRecord fields dst => "record \x7b" ++ registerList fields ++ "\x7d" ++ intoText dst
  | .makeAlt index src dst =>
    "alt #" ++ toString index.toNat ++ " " ++ registerName src ++ intoText dst
  | .prim function src dst => "prim." ++ function.name ++ " " ++ registerName src ++ intoText dst
  | .barrier keep => "barrier [" ++ registerList keep ++ "]"
  | .emit src => "yield " ++ registerName src

/-- A number with blanks in front up to a width of three. -/
def lineNumber (n : Nat) : String :=
  let digits := toString n
  String.ofList (List.replicate (3 - digits.length) ' ') ++ digits

/-- The lines of a code, each behind the given indentation. -/
def Code.lines (indent : String) (c : Code) : List String :=
  (indent ++ "registers: " ++ toString c.registers) ::
    (c.blocks.mapIdx fun i block =>
      (indent ++ "block " ++ toString i ++ ":") ::
        block.mapIdx fun n instr =>
          indent ++ "  " ++ lineNumber n ++ ": " ++ instr.render).flatten

/-- The listing of a program. -/
def Program.render (p : Program) : String :=
  unlines <| "bytecode:" :: p.main.lines "  " ++
    p.derived.entries.flatMap fun e => ("  derived " ++ e.1.render ++ ":") :: e.2.lines "    "

end Factbase
