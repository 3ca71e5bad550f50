import Factbase.Query.Reader
import Factbase.Value

/-!
# Schema declarations

What a schema text declares, before its names are resolved, and the
reader for it. Between two items of a schema a semicolon may stand.
-/

namespace Factbase

/-- A versioned schema name, such as `example` at version 2. -/
structure SchemaId where
  name : String
  version : UInt32
deriving DecidableEq, Repr, Inhabited

namespace SchemaId

instance : Ord SchemaId := ⟨compareLex (compareOn name) (compareOn version)⟩

instance : Std.TransOrd SchemaId :=
  inferInstanceAs (Std.TransCmp (compareLex (compareOn name) (compareOn version)))

instance : Std.LawfulEqOrd SchemaId where
  eq_of_compare {a b} h := by
    have h : (compareOn name a b).then (compareOn version a b) = .eq := h
    simp only [Ordering.then_eq_eq, compareOn, Std.LawfulEqOrd.compare_eq_iff_eq] at h
    cases a; cases b; simp_all

/-- `name.version` -/
def render (s : SchemaId) : String := s.name ++ "." ++ toString s.version.toNat

end SchemaId

/-- A literal that a field may have as its default. -/
inductive Literal where
  | nat (n : UInt64)
  | string (s : String)
  | bool (b : Bool)
deriving DecidableEq, Repr, Inhabited

mutual
/-- A field as written. -/
structure FieldExpr where
  name : String
  ty : TypeExpr
  default : Option Literal

/-- A type as written. -/
inductive TypeExpr where
  | byte
  | nat
  | bool
  | string
  | array (elem : TypeExpr)
  | record (fields : List FieldExpr)
  | sum (alts : List FieldExpr)
  | maybe (inner : TypeExpr)
  | enum (names : List String)
  | named (name : String)
end

instance : Inhabited TypeExpr := ⟨.nat⟩

namespace TypeExpr

mutual
/-- Structural equality. -/
def beq : TypeExpr → TypeExpr → Bool
  | .byte, .byte => true
  | .nat, .nat => true
  | .bool, .bool => true
  | .string, .string => true
  | .array a, .array b => a.beq b
  | .record a, .record b => beqFields a b
  | .sum a, .sum b => beqFields a b
  | .maybe a, .maybe b => a.beq b
  | .enum a, .enum b => a == b
  | .named a, .named b => a == b
  | _, _ => false

def beqFields : List FieldExpr → List FieldExpr → Bool
  | [], [] => true
  | ⟨n, a, d⟩ :: as, ⟨m, b, e⟩ :: bs => n == m && a.beq b && d == e && beqFields as bs
  | _, _ => false
end

mutual
theorem beq_iff_eq : (a b : TypeExpr) → (a.beq b = true ↔ a = b)
  | .byte, b => by cases b <;> simp [beq]
  | .nat, b => by cases b <;> simp [beq]
  | .bool, b => by cases b <;> simp [beq]
  | .string, b => by cases b <;> simp [beq]
  | .array a, b => by cases b <;> simp [beq, beq_iff_eq a]
  | .record as, b => by cases b <;> simp [beq, beqFields_iff_eq as]
  | .sum as, b => by cases b <;> simp [beq, beqFields_iff_eq as]
  | .maybe a, b => by cases b <;> simp [beq, beq_iff_eq a]
  | .enum _, b => by cases b <;> simp [beq]
  | .named _, b => by cases b <;> simp [beq]

theorem beqFields_iff_eq : (as bs : List FieldExpr) → (beqFields as bs = true ↔ as = bs)
  | [], bs => by cases bs <;> simp [beqFields]
  | ⟨n, a, d⟩ :: as, bs => by
    cases bs with
    | nil => simp [beqFields]
    | cons b bs =>
      obtain ⟨m, b, e⟩ := b
      simp [beqFields, beq_iff_eq a, beqFields_iff_eq as, and_assoc]
end

instance : DecidableEq TypeExpr := fun a b => decidable_of_iff _ (beq_iff_eq a b)

end TypeExpr

/-- An item of a schema: an alias, or a predicate with its key type, its value
type and how its facts are derived from others. -/
inductive SchemaItem where
  | alias (name : String) (ty : TypeExpr)
  | predicate (name : String) (key : TypeExpr) (value : Option TypeExpr)
      (derivation : Option (Pattern × Query))
deriving DecidableEq, Inhabited

/-- A schema as written. -/
structure SchemaDecl where
  name : String
  version : UInt32
  inherits : List SchemaId
  imports : List SchemaId
  items : List SchemaItem
deriving DecidableEq, Inhabited

/-- The versioned name of a declaration. -/
def SchemaDecl.id (d : SchemaDecl) : SchemaId := ⟨d.name, d.version⟩

/-! ## Reading -/

namespace TypeExpr

/-- The literal after `=`. -/
def parseDefault : Parse Literal := do
  match ← Parse.take with
  | .nat n => return .nat n
  | .string s => return .string s
  | .name name =>
    if name = "true" then return .bool true
    else if name = "false" then return .bool false
    else Parse.fail (.expectedDefault (.name name))
  | other => Parse.fail (.expectedDefault other)

/-- `name : type [= literal]`, its type read by `inner`. -/
def parseField (inner : Parse TypeExpr) : Parse FieldExpr := do
  let name ← Parse.expectName
  Parse.expect .colon
  let ty ← inner
  if ← Parse.eat .equals then return ⟨name, ty, some (← parseDefault)⟩
  return ⟨name, ty, none⟩

/-- The fields after the first one; a separator may stand after the last. -/
def parseMoreFields (inner : Parse TypeExpr) (separator : Token) : Nat → Parse (List FieldExpr)
  | 0 => return []
  | n + 1 => do
    if ← Parse.eat separator then
      if (← Parse.peek) = .rightBrace then return []
      let f ← parseField inner
      return f :: (← parseMoreFields inner separator n)
    return []

/-- The names after the first one of an enumeration. -/
def parseMoreNames : Nat → Parse (List String)
  | 0 => return []
  | n + 1 => do
    if ← Parse.eat .bar then
      let name ← Parse.expectName
      return name :: (← parseMoreNames n)
    return []

/-- A type proper; `inner` reads the types inside it. -/
def parsePrimary (inner : Parse TypeExpr) : Parse TypeExpr := do
  match ← Parse.take with
  | .leftBracket =>
    let elem ← inner
    Parse.expect .rightBracket
    return .array elem
  | .leftBrace =>
    if ← Parse.eat .rightBrace then return .record []
    let first ← parseField inner
    let isSum := (← Parse.peek) = .bar
    let rest ← parseMoreFields inner (if isSum then .bar else .comma) (← Parse.remaining)
    Parse.expect .rightBrace
    return if isSum then .sum (first :: rest) else .record (first :: rest)
  | .name "byte" => return .byte
  | .name "nat" => return .nat
  | .name "bool" => return .bool
  | .name "string" => return .string
  | .name "maybe" => return .maybe (← inner)
  | .name "enum" =>
    Parse.expect .leftBrace
    let first ← Parse.expectName
    let rest ← parseMoreNames (← Parse.remaining)
    Parse.expect .rightBrace
    return .enum (first :: rest)
  | .name name => return .named name
  | other => Parse.fail (.expectedType other)

/-- A type with so many levels of nesting left. -/
def parseWithin : Nat → Parse TypeExpr
  | 0 => Parse.fail .tooDeep
  | depth + 1 => parsePrimary (parseWithin depth)

/-- A type. -/
def parse : Parse TypeExpr := parseWithin maxNesting

end TypeExpr

/-- A versioned schema name. -/
def SchemaId.parse : Parse SchemaId := do
  let text ← Parse.expectName
  match splitVersion text with
  | (name, some version) => return ⟨name, version⟩
  | (_, none) => Parse.fail (.unversionedSchema text)

namespace SchemaItem

/-- Whether a token ends an item or starts the next one. -/
def endsBefore : Token → Bool
  | .rightBrace | .semicolon | .endOfInput => true
  | .name n => n = "predicate" || n = "type" || n = "import"
  | _ => false

/-- A predicate after its keyword. -/
def parsePredicate : Parse SchemaItem := do
  let name ← Parse.expectName
  if name.toList.contains '.' then Parse.fail (.qualifiedPredicate name)
  Parse.expect .colon
  let key ← TypeExpr.parse
  let value ← if ← Parse.eat .arrow then some <$> TypeExpr.parse else pure none
  if endsBefore (← Parse.peek) then return .predicate name key value none
  let head ← Pattern.parse
  Parse.expectKeyword "where"
  return .predicate name key value (some (head, ← Query.parse))

/-- An alias after its keyword. -/
def parseAlias : Parse SchemaItem := do
  let name ← Parse.expectName
  Parse.expect .equals
  return .alias name (← TypeExpr.parse)

/-- An alias or a predicate. -/
def parse : Parse SchemaItem := do
  if ← Parse.eat (.name "type") then parseAlias
  else if ← Parse.eat (.name "predicate") then parsePredicate
  else Parse.failHere .expectedItem

end SchemaItem

namespace SchemaDecl

/-- The schemas that a schema inherits from, separated by commas. -/
def parseInherits : Nat → Parse (List SchemaId)
  | 0 => return [← SchemaId.parse]
  | n + 1 => do
    let first ← SchemaId.parse
    if ← Parse.eat .comma then return first :: (← parseInherits n)
    return [first]

/-- Imports and items up to the closing brace. -/
def parseItems : Nat → Parse (List SchemaId × List SchemaItem)
  | 0 => Parse.failHere .expectedItem
  | n + 1 => do
    if ← Parse.eat .rightBrace then return ([], [])
    if ← Parse.eat (.name "import") then
      let id ← SchemaId.parse
      discard (Parse.eat .semicolon)
      let (imports, items) ← parseItems n
      return (id :: imports, items)
    let item ← SchemaItem.parse
    discard (Parse.eat .semicolon)
    let (imports, items) ← parseItems n
    return (imports, item :: items)

/-- A schema declaration. -/
def parse : Parse SchemaDecl := do
  Parse.expectKeyword "schema"
  let id ← SchemaId.parse
  let inherits ←
    if ← Parse.eat .colon then do parseInherits (← Parse.remaining) else pure []
  Parse.expect .leftBrace
  let (imports, items) ← parseItems (← Parse.remaining)
  return ⟨id.name, id.version, inherits, imports, items⟩

/-- Declarations up to the end of input. -/
def parseAll : Nat → Parse (List SchemaDecl)
  | 0 => return []
  | n + 1 => do
    if (← Parse.peek) = .endOfInput then return []
    let d ← parse
    return d :: (← parseAll n)

/-- The declarations that a text spells. -/
def readAll (text : String) : Except SourceError (List SchemaDecl) := do
  let cursor ← Cursor.ofText text
  let (decls, _) ← (do parseAll (← Parse.remaining)).run cursor
  return decls

end SchemaDecl

end Factbase
