import Factbase.Source.Lexer

/-!
# Reading a token sequence

A cursor stands at a token of a sequence and never moves past the last
one, the end of input. `Parse` is the state of a cursor with failure;
a fault is reported at the token the cursor stands at.
-/

namespace Factbase

/-- A position in a token sequence: the current token and those after it. -/
structure Cursor where
  here : Located
  rest : List Located
deriving DecidableEq, Repr, Inhabited

namespace Cursor

/-- The cursor at the first token of a text. -/
def ofText (text : String) : Except SourceError Cursor := do
  match ← Token.readAll text with
  | [] => return ⟨⟨.endOfInput, .start⟩, []⟩
  | t :: ts => return ⟨t, ts⟩

/-- The current token. -/
def peek (c : Cursor) : Token := c.here.token

/-- The token after the current one. -/
def peekSecond (c : Cursor) : Token := (c.rest.head?.getD c.here).token

/-- One token further on, unless the current one is the last. -/
def advance (c : Cursor) : Cursor :=
  match c.rest with
  | [] => c
  | t :: ts => ⟨t, ts⟩

end Cursor

/-- A parser: it moves a cursor, or reports a fault. -/
abbrev Parse (α : Type) := StateT Cursor (Except SourceError) α

namespace Parse

/-- Report a fault at the current token. -/
def fail {α : Type} (fault : SourceFault) : Parse α := fun c => .error ⟨c.here.position, fault⟩

/-- Report a fault that names the current token. -/
def failHere {α : Type} (fault : Token → SourceFault) : Parse α := fun c =>
  .error ⟨c.here.position, fault c.peek⟩

/-- The current token. -/
def peek : Parse Token := return (← get).peek

/-- The token after the current one. -/
def peekSecond : Parse Token := return (← get).peekSecond

/-- The current token, which the cursor moves past. -/
def take : Parse Token := fun c => .ok (c.peek, c.advance)

/-- Move past the current token if it is the given one. -/
def eat (token : Token) : Parse Bool := fun c =>
  if c.peek = token then .ok (true, c.advance) else .ok (false, c)

/-- Move past the given token, which must come next. -/
def expect (token : Token) : Parse Unit := do
  unless ← eat token do failHere (.expected token)

/-- Move past a keyword, which must come next. -/
def expectKeyword (keyword : String) : Parse Unit := do
  unless ← eat (.name keyword) do failHere (.expectedKeyword keyword)

/-- Move past a name and return it. -/
def expectName : Parse String := do
  match ← peek with
  | .name text => discard take; return text
  | found => fail (.expectedName found)

/-- The number of tokens after the current one: no loop that moves the cursor
in every turn runs longer. -/
def remaining : Parse Nat := return (← get).rest.length

/-- One or more items separated by commas, and the closing token. -/
def itemsUntil {α : Type} (close : Token) (item : Parse α) : Parse (List α) := do
  go (← remaining)
where
  go : Nat → Parse (List α)
    | 0 => do
      let x ← item
      expect close
      return [x]
    | n + 1 => do
      let x ← item
      if ← eat close then return [x]
      expect .comma
      return x :: (← go n)

end Parse

end Factbase
