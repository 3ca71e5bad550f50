import Factbase.Query.Reading
import Factbase.Text.Casing

/-!
# Running programs

The blocks of a program are run one after another, each of them once for
every set of register contents that the block before it has handed over.
Within a block a source instruction runs the rest of the block for every
candidate, and a failed test goes back to the last candidate.

Handing over and yielding leave out what has been handed over or yielded
before. When a limit is reached and one more result would be yielded,
the run is over.

The facts of a derived predicate are computed when they are first asked
for, under ids above those of the store, and kept for the rest of the
run.
-/

namespace Factbase

/-- What changes while a program runs. -/
structure Evaluation where
  /-- The facts of the derived predicates computed so far. -/
  derived : SortedMap Predicate (List FactId)
  overlay : Overlay
  /-- The id of the next derived fact. -/
  next : FactId
  /-- The number of facts looked at. -/
  searched : Nat
  /-- The same by predicate, where it is wanted. -/
  profile : Option Profile

/-- A step of a run. -/
abbrev Run (α : Type) := StateT Evaluation (Except Error) α

/-- Count a fact that is looked at. -/
def examine (p : Predicate) : Run Unit := modify fun e =>
  { e with searched := e.searched + 1, profile := e.profile.map (·.record p) }

/-- The value of a primitive function. -/
def Prim.apply (f : Prim) (v : Value) : Except TypeFault Value :=
  match f, v with
  | .toLower, .string s => .ok (.string (lowerCase s))
  | .toUpper, .string s => .ok (.string (upperCase s))
  | .length, .array items => .ok (.nat (UInt64.ofNat items.length))
  | f, v => .error (.primArgument f.name v.kind)

/-! ## Registers -/

/-- The contents of registers. -/
abbrev Registers := Nat → Value

/-- The registers on one path through a block, and the facts loaded in them. -/
structure Frame where
  regs : Registers
  facts : Nat → Option Fact

namespace Frame

/-- A frame with registers and no fact loaded. -/
def ofRegisters (regs : Registers) : Frame := ⟨regs, fun _ => none⟩

/-- The frame with another value in a register. -/
def put (f : Frame) (dst : Nat) (v : Value) : Frame :=
  { f with regs := fun r => if r = dst then v else f.regs r }

/-- The frame with a fact loaded in a register. -/
def load (f : Frame) (dst : Nat) (fact : Fact) : Frame where
  regs := fun r => if r = dst then .fact fact.id else f.regs r
  facts := fun r => if r = dst then some fact else f.facts r

/-- The frame with a register copied, and the fact loaded in it. -/
def move (f : Frame) (src dst : Nat) : Frame where
  regs := fun r => if r = dst then f.regs src else f.regs r
  facts := fun r => if r = dst then f.facts src else f.facts r

/-- The fact loaded in a register. -/
def loaded (f : Frame) (r : Nat) : Except Error Fact :=
  match f.facts r with
  | some fact => .ok fact
  | none => .error (.storage (.nothingLoaded r))

end Frame

/-- The contents that an operand stands for. -/
def Operand.eval (regs : Registers) : Operand → Value
  | .const v => v
  | .reg r => regs r

/-! ## Sinks -/

/-- What a block has given so far: registers handed over, with the contents that
told them apart, or values yielded. -/
structure Sink where
  seen : List (List Value)
  frames : List Registers
  values : List Value
  limit : Option Nat
  /-- There was one more value than the limit allows. -/
  truncated : Bool

namespace Sink

/-- The sink that has been given nothing. -/
def empty (limit : Option Nat) : Sink := ⟨[], [], [], limit, false⟩

/-- Hand over registers, unless others with the same contents of `keep` have been. -/
def handOver (s : Sink) (keep : List Nat) (regs : Registers) : Sink :=
  let live := keep.map regs
  if s.seen.contains live then s
  else { s with seen := live :: s.seen, frames := s.frames ++ [regs] }

/-- Yield a value, unless it has been. -/
def yield (s : Sink) (v : Value) : Sink :=
  if s.values.contains v then s
  else if s.limit.any (· ≤ s.values.length) then { s with truncated := true }
  else { s with values := s.values ++ [v] }

end Sink

/-- Take steps for items in turn, until one more value than allowed is yielded. -/
def visitAll {α : Type} (step : α → Sink → Run Sink) : List α → Sink → Run Sink
  | [], sink => return sink
  | x :: xs, sink => do
    let sink ← step x sink
    if sink.truncated then return sink else visitAll step xs sink

/-! ## Instructions -/

variable {σ : Type} [FactStore σ]

/-- Run what is left of a block. `derive` gives the facts of derived predicates. -/
def exec (r : Reading σ) (derive : Predicate → Run (List FactId)) :
    List Instr → Frame → Sink → Run Sink
  | [], _, sink => return sink
  | .scan p dst :: rest, f, sink =>
    visitAll (fun id sink => do
      match ← r.read (← get).overlay id p with
      | some fact =>
        examine fact.predicate
        exec r derive rest (f.load dst fact) sink
      | none => return sink) (r.scan p) sink
  | .seek p operand dst :: rest, f, sink => do
    let key := operand.eval f.regs
    visitAll (fun id sink => do
      match ← r.read (← get).overlay id p with
      | some fact =>
        examine p
        if fact.key = key then exec r derive rest (f.load dst fact) sink else return sink
      | none => return sink) (← r.seek p key) sink
  | .load id dst :: rest, f, sink => do
    let visit (fact : Fact) (sink : Sink) : Run Sink := do
      examine fact.predicate
      exec r derive rest (f.load dst fact) sink
    match (← get).overlay.get? id with
    | some fact => visit fact sink
    | none =>
      match FactStore.lookup r.store id with
      | none => throw (.notFound (.fact id))
      | some stored =>
        let siblings := (FactStore.seek r.store stored.predicate stored.key).filter (· ≠ id)
        let sink ← visit (← r.readStored stored) sink
        if sink.truncated then return sink
        visitAll (fun sibling sink => do
          match ← r.readAny (← get).overlay sibling with
          | some fact => visit fact sink
          | none => return sink) siblings sink
  | .derive p dst :: rest, f, sink => do
    visitAll (fun id sink => do
      match (← get).overlay.get? id with
      | some fact =>
        examine fact.predicate
        exec r derive rest (f.load dst fact) sink
      | none => return sink) (← derive p) sink
  | .deref src p dst :: rest, f, sink => do
    match f.regs src with
    | .fact id =>
      match ← r.read (← get).overlay id p with
      | some fact =>
        examine p
        exec r derive rest (f.load dst fact) sink
      | none => return sink
    | _ => return sink
  | .key src dst :: rest, f, sink => do
    exec r derive rest (f.put dst (← f.loaded src).key) sink
  | .value src dst :: rest, f, sink => do
    exec r derive rest (f.put dst (← f.loaded src).value) sink
  | .field src index dst :: rest, f, sink =>
    match f.regs src with
    | .record fields =>
      match fields[index]? with
      | some v => exec r derive rest (f.put dst v) sink
      | none => return sink
    | _ => return sink
  | .alt src index dst :: rest, f, sink =>
    match f.regs src with
    | .alt i payload =>
      if i = index then exec r derive rest (f.put dst payload) sink else return sink
    | _ => return sink
  | .arrayLen src len :: rest, f, sink =>
    match f.regs src with
    | .array items => if items.length = len then exec r derive rest f sink else return sink
    | _ => return sink
  | .elem src index dst :: rest, f, sink =>
    match f.regs src with
    | .array items =>
      match items[index]? with
      | some v => exec r derive rest (f.put dst v) sink
      | none => return sink
    | _ => return sink
  | .eqConst src v :: rest, f, sink =>
    if f.regs src = v then exec r derive rest f sink else return sink
  | .startsWith src start :: rest, f, sink =>
    match f.regs src with
    | .string s =>
      if start.toList.isPrefixOf s.toList then exec r derive rest f sink else return sink
    | _ => return sink
  | .eqReg a b :: rest, f, sink =>
    if f.regs a = f.regs b then exec r derive rest f sink else return sink
  | .move src dst :: rest, f, sink => exec r derive rest (f.move src dst) sink
  | .const v dst :: rest, f, sink => exec r derive rest (f.put dst v) sink
  | .makeArray items dst :: rest, f, sink =>
    exec r derive rest (f.put dst (.array (items.map f.regs))) sink
  | .makeRecord fields dst :: rest, f, sink =>
    exec r derive rest (f.put dst (.record (fields.map f.regs))) sink
  | .makeAlt index src dst :: rest, f, sink =>
    exec r derive rest (f.put dst (.alt index (f.regs src))) sink
  | .prim function src dst :: rest, f, sink => do
    exec r derive rest (f.put dst (← orTypeError (function.apply (f.regs src)))) sink
  | .barrier keep :: _, f, sink => return sink.handOver keep f.regs
  | .emit src :: _, f, sink => return sink.yield (f.regs src)

/-! ## Programs -/

/-- Run a block for every one of some registers. -/
def runBlock (r : Reading σ) (derive : Predicate → Run (List FactId)) (limit : Option Nat)
    (block : List Instr) (frames : List Registers) : Run Sink :=
  visitAll (fun regs sink => exec r derive block (.ofRegisters regs) sink) frames (.empty limit)

/-- Run blocks in turn. The limit is for the last of them. -/
def runBlocks (r : Reading σ) (derive : Predicate → Run (List FactId)) (limit : Option Nat) :
    List (List Instr) → List Registers → Run Sink
  | [], _ => return .empty limit
  | [block], frames => runBlock r derive limit block frames
  | block :: rest, frames => do
    let sink ← runBlock r derive none block frames
    runBlocks r derive limit rest sink.frames

/-- Run a code from registers that hold nothing. -/
def Code.run (c : Code) (r : Reading σ) (derive : Predicate → Run (List FactId))
    (limit : Option Nat) : Run Sink :=
  runBlocks r derive limit c.blocks [fun _ => .unit]

/-- Make up a fact of a derived predicate. -/
def addDerived (p : Predicate) (key : Value) : Run FactId := fun e =>
  let fact : Fact := ⟨e.next, p, key, .unit⟩
  .ok (e.next, { e with next := e.next.next, overlay := e.overlay.insert e.next fact })

/-- The facts of a derived predicate. Derived predicates use one another to a depth
of at most `fuel`. -/
def deriveFacts (r : Reading σ) (bodies : SortedMap Predicate Code) (fuel : Nat) (p : Predicate) :
    Run (List FactId) := do
  match (← get).derived.get? p with
  | some ids => return ids
  | none =>
    if FactStore.state r.store ≠ .complete then throw (.incomplete (.derivation p))
    match bodies.get? p, fuel with
    | none, _ | _, 0 => throw (.type (.noDerivation p))
    | some code, fuel + 1 =>
      let sink ← code.run r (deriveFacts r bodies fuel) none
      let ids ← sink.values.mapM (addDerived p)
      modify fun e => { e with derived := e.derived.insert p ids }
      return ids

/-- Run a program. -/
def Program.run (p : Program) (r : Reading σ) (limit : Option Nat) : Run Sink :=
  p.main.run r (deriveFacts r p.derived p.derived.size) limit

end Factbase
