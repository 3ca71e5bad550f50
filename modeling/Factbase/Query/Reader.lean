import Factbase.Query.Basic
import Factbase.Source.Cursor

/-!
# Reading queries

Recursive descent over a cursor. A pattern is read with a budget of
containers that may still be opened; the recursion is on that budget, so
it ends on every input.

Statements are separated by `;` or `|`. A bare number, also in braces, is
a fact id where a statement stands alone, and a literal after `=`.
-/

namespace Factbase

/-- A variable is a name without points that starts with a capital letter. -/
def isVariable (name : String) : Bool :=
  match name.toList with
  | [] => false
  | c :: rest => c.isUpper && !(c :: rest).contains '.'

namespace Pattern

/-- A pattern proper; `inner` reads the patterns inside it. -/
def parsePrimary (inner : Parse Pattern) : Parse Pattern := do
  match ← Parse.peek with
  | .wild => discard Parse.take; return .wild
  | .nat n => discard Parse.take; return .nat n
  | .string s => discard Parse.take; return .string s
  | .leftParen =>
    discard Parse.take
    let p ← inner
    Parse.expect .rightParen
    return p
  | .leftBracket =>
    discard Parse.take
    if ← Parse.eat .rightBracket then return .array []
    return .array (← Parse.itemsUntil .rightBracket inner)
  | .leftBrace =>
    discard Parse.take
    if ← Parse.eat .rightBrace then return .fields []
    match ← Parse.peek, ← Parse.peekSecond with
    | .name _, .equals => return .fields (← Parse.itemsUntil .rightBrace (field inner))
    | _, _ => return .tuple (← Parse.itemsUntil .rightBrace inner)
  | .name n =>
    if n = "true" || n = "false" then
      discard Parse.take
      return .bool (n = "true")
    else if isVariable n then
      discard Parse.take
      return .var n
    else Parse.fail (.expectedPattern (.name n))
  | found => Parse.fail (.expectedPattern found)
where
  /-- `name = pattern` -/
  field (inner : Parse Pattern) : Parse (String × Pattern) := do
    let name ← Parse.expectName
    Parse.expect .equals
    return (name, ← inner)

/-- The mark `..` after a pattern: a string becomes the start of a string, and
anything else is not expanded. -/
def marked : Pattern → Pattern
  | .string s => .stringStart s
  | p => .noExpand p

/-- A pattern and the mark after it, with so many levels of nesting left. -/
def parseWithin : Nat → Parse Pattern
  | 0 => Parse.fail .tooDeep
  | depth + 1 => do
    let p ← parsePrimary (parseWithin depth)
    if ← Parse.eat .dots then return p.marked
    return p

/-- A pattern. -/
def parse : Parse Pattern := parseWithin maxNesting

/-- Whether a token can start a pattern. -/
def startsWith : Token → Bool
  | .leftBrace | .leftBracket | .leftParen | .string _ | .nat _ | .wild => true
  | .name n => n = "true" || n = "false" || isVariable n
  | _ => false

end Pattern

namespace Source

/-- A name that stands for a predicate where a source is read: qualified, or
not starting with an underscore; the truth values are no predicates. -/
def isPredicateName (name : String) : Bool :=
  name ≠ "true" && name ≠ "false" &&
    (name.toList.contains '.' || (name.toList.head?.any Char.isLower) || isVariable name)

/-- The name of a primitive, if the name is one: what follows `prim.`. -/
def primName? (name : String) : Option String :=
  match name.toList with
  | 'p' :: 'r' :: 'i' :: 'm' :: '.' :: rest => some (String.ofList rest)
  | _ => none

/-- A source. A value pattern can stand after a key pattern only. -/
def parse : Parse Source := do
  match ← Parse.peek with
  | .dollar =>
    discard Parse.take
    match ← Parse.take with
    | .nat id => return .factId id
    | other => Parse.fail (.expectedFactId other)
  | .name name =>
    match primName? name with
    | some function =>
      discard Parse.take
      return .prim function (← Pattern.parse)
    | none =>
      if isPredicateName name then
        discard Parse.take
        let (base, version) := splitVersion name
        if Pattern.startsWith (← Parse.peek) then
          let p ← Pattern.parse
          if ← Parse.eat .arrow then
            return .predicate base version (some p) (some (← Pattern.parse))
          return .predicate base version (some p) none
        return .predicate base version none none
      return .expr (← Pattern.parse)
  | _ => return .expr (← Pattern.parse)

/-- The pattern that a source is when `=` follows it. -/
def asPattern? : Source → Option Pattern
  | .expr p => some p
  | .predicate name none none none => if isVariable name then some (.var name) else none
  | _ => none

/-- A source that stands alone: a bare number is a fact id. -/
def standalone : Source → Source
  | .expr (.nat id) => .factId id
  | .expr (.tuple [.nat id]) => .factId id
  | s => s

end Source

/-- A statement. -/
def Statement.parse : Parse Statement := do
  let first ← Source.parse
  if ← Parse.eat .equals then
    match first.asPattern? with
    | none => Parse.fail .notAPattern
    | some p => return ⟨some p, ← Source.parse⟩
  return ⟨none, first.standalone⟩

/-- Take `;` or `|`. -/
def Statement.parseSeparator : Parse Bool := do
  if ← Parse.eat .semicolon then return true
  Parse.eat .bar

/-- Statements up to the first token that is no separator and starts none. A
separator may stand after the last one. -/
def Query.parse : Parse Query := do
  let first ← Statement.parse
  return ⟨first :: (← more (← Parse.remaining))⟩
where
  more : Nat → Parse (List Statement)
    | 0 => return []
    | n + 1 => do
      if ← Statement.parseSeparator then
        match ← Parse.peek with
        | .endOfInput | .rightBrace => return []
        | _ =>
          let s ← Statement.parse
          return s :: (← more n)
      return []

/-- The query that a text spells. -/
def Query.read (text : String) : Except SourceError Query := do
  if text.utf8ByteSize > maxQueryBytes then throw ⟨.start, .tooLong⟩
  let cursor ← Cursor.ofText text
  let (query, cursor) ← Query.parse.run cursor
  match cursor.peek with
  | .endOfInput => return query
  | found => throw ⟨cursor.here.position, .unexpected found⟩

end Factbase
