import Factbase.Error
import Factbase.Query.Plan
import Factbase.Query.Reader

/-!
# Typing queries

Typing resolves the names of a query against a schema and turns it into
a plan, or says why it is none.

A variable is bound by its first occurrence in a pattern; at a later one
the types must be compatible, and the values will be compared. An
expression may use bound variables only. A pattern other than a variable
at the place of a reference is matched against the key of the fact that
is referred to.

Derived predicates that a query uses are typed once each, with the names
of the schema that declares them. One that uses itself is refused, and so
is a chain of them that is too long: the recursion is on the number of
further derived predicates that may be entered.
-/

namespace Factbase

/-- How many derived predicates may be entered one from another. -/
def maxDerivations : Nat := 32

/-- The bodies of the derived predicates that have been typed. -/
abbrev Bodies := SortedMap Predicate Body

/-- What is known while a body is typed: the variables bound so far, the paths
marked so far, and the bodies of derived predicates. -/
structure Typing where
  vars : List Variable
  noExpand : SortedSet (List String)
  bodies : Bodies

/-- A step of typing. -/
abbrev Check (α : Type) := StateT Typing (Except Error) α

namespace Check

def fail {α : Type} (e : TypeFault) : Check α := throw (.type e)

/-- The number and the type of a variable of the given name. -/
def locate? (name : String) : List Variable → Option (Nat × Ty)
  | [] => none
  | v :: rest =>
    if v.name = name then some (0, v.ty)
    else (locate? name rest).map fun found => (found.1 + 1, found.2)

/-- The occurrence of a variable in a pattern for values of a type. -/
def occurrence (name : String) (ty : Ty) : Check Match := fun t =>
  match locate? name t.vars with
  | some (v, bound) =>
    if bound.compatible ty then .ok (.same v, t)
    else .error (.type (.variableType name bound ty))
  | none => .ok (.bind t.vars.length, { t with vars := t.vars ++ [⟨name, ty⟩] })

/-- Mark a path as one that is not expanded. -/
def mark (path : List String) : Check Unit :=
  modify fun t => { t with noExpand := t.noExpand.add path }

/-- The index and the type of a field of the given name; `whole` is the type it
belongs to. -/
def field (name : String) (fields : List Field) (whole : Ty) : Check (Nat × Ty) :=
  match Field.locate? name fields with
  | some (i, f) => return (i, f.ty)
  | none => fail (.unknownField name whole)

/-- The index of an alternative as a number of 32 bits. -/
def altIndex (i : Nat) : Check UInt32 :=
  if i < 2 ^ 32 then return UInt32.ofNat i else fail .tooManyAlternatives

end Check

open Check

/-- What typing depends on: the schema, the names that a body may use, and how
to enter a derived predicate. -/
structure TypingContext where
  schema : Schema
  names : SortedMap String Predicate
  derive : Definition → Bodies → Except Error Bodies

namespace TypingContext

/-- Make sure that the body of a derived predicate is there. -/
def enter (c : TypingContext) (d : Definition) : Check Unit := fun t =>
  match c.derive d t.bodies with
  | .ok bodies => .ok ((), { t with bodies })
  | .error e => .error e

/-! ## Patterns -/

/-- The references to follow from a type until it is no reference any more, and
the type that is reached. Where more predicates follow one another than a schema
has, their keys are references in a circle, and no type is ever reached. -/
def follow (c : TypingContext) : Nat → Ty → Check (List Predicate × Ty)
  | fuel, .predicate p => do
    match c.schema.get? p with
    | none => throw (.unresolved (.unknown p.render))
    | some d =>
      c.enter d
      match fuel with
      | 0 => throw .endless
      | fuel + 1 =>
        let (ps, ty) ← follow c fuel d.key
        return (p :: ps, ty)
  | _, ty => return ([], ty)

/-- Match through references, the outermost first. -/
def through (ps : List Predicate) (m : Match) : Match := ps.foldr .deref m

mutual
/-- The match of a pattern against values of a type. `path` has the names of the
fields on the way from the root of the key or value that is matched. -/
def pattern (c : TypingContext) (path : List String) (ty : Ty) (p : Pattern) : Check Match :=
  match p with
  | .wild => return .wild
  | .noExpand inner => do
    mark path
    pattern c path ty inner
  | .var name => occurrence name ty
  | .nat n => do
    let (ps, ty) ← c.follow c.schema.predicates.size ty
    match ty with
    | .nat => return through ps (.lit (.nat n))
    | .byte =>
      if n.toNat < 256 then return through ps (.lit (.byte n.toUInt8)) else fail (.byteTooLarge n)
    | ty => fail (.patternMismatch p ty)
  | .string s => do
    let (ps, ty) ← c.follow c.schema.predicates.size ty
    match ty with
    | .string => return through ps (.lit (.string s))
    | ty => fail (.patternMismatch p ty)
  | .stringStart s => do
    let (ps, ty) ← c.follow c.schema.predicates.size ty
    match ty with
    | .string => return through ps (.stringStart s)
    | ty => fail (.patternMismatch p ty)
  | .bool b => do
    let (ps, ty) ← c.follow c.schema.predicates.size ty
    match ty with
    | .bool => return through ps (.lit (.bool b))
    | ty => fail (.patternMismatch p ty)
  | .array items => do
    let (ps, ty) ← c.follow c.schema.predicates.size ty
    match ty with
    | .array elem => return through ps (.array (← patterns c path elem items))
    | ty => fail (.patternMismatch p ty)
  | .fields given => do
    let (ps, ty) ← c.follow c.schema.predicates.size ty
    match ty with
    | .record fields =>
      return through ps (.record fields.length (← fieldPatterns c path fields ty given))
    | .sum alts =>
      match given with
      | [(name, sub)] =>
        let (i, altTy) ← field name alts ty
        let payload ← pattern c (path ++ [name]) altTy sub
        return through ps (.alt (← altIndex i) payload)
      | _ => fail (.patternAlternatives ty)
    | ty => fail (.patternMismatch p ty)
  | .tuple items => do
    let (ps, ty) ← c.follow c.schema.predicates.size ty
    match ty with
    | .record fields =>
      if items.length = fields.length then
        return through ps (.record fields.length (← tuplePatterns c path 0 fields items))
      else fail (.fieldCount fields.length ty items.length)
    | ty => fail (.patternMismatch p ty)

/-- The matches of patterns against the items of an array. -/
def patterns (c : TypingContext) (path : List String) (elem : Ty) (ps : List Pattern) :
    Check (List Match) :=
  match ps with
  | [] => return []
  | p :: ps => return (← pattern c path elem p) :: (← patterns c path elem ps)

/-- The matches of patterns against named fields of a record. -/
def fieldPatterns (c : TypingContext) (path : List String) (fields : List Field) (whole : Ty)
    (given : List (String × Pattern)) : Check (List (Nat × Match)) :=
  match given with
  | [] => return []
  | (name, sub) :: rest => do
    let (i, ty) ← field name fields whole
    let m ← pattern c (path ++ [name]) ty sub
    return (i, m) :: (← fieldPatterns c path fields whole rest)

/-- The matches of patterns against fields in order, the first of them at index `i`. -/
def tuplePatterns (c : TypingContext) (path : List String) (i : Nat) (fields : List Field)
    (items : List Pattern) : Check (List (Nat × Match)) :=
  match items, fields with
  | p :: ps, f :: fs => do
    let m ← pattern c (path ++ [f.name]) f.ty p
    return (i, m) :: (← tuplePatterns c path (i + 1) fs ps)
  | _, _ => return []
end

/-! ## Expressions -/

mutual
/-- The expression that a pattern is, of the given type where one is given, and
its type. -/
def expr (p : Pattern) (expected : Option Ty) : Check (Expr × Ty) :=
  match p with
  | .noExpand inner => expr inner expected
  | .var name => do
    match locate? name (← get).vars with
    | none => throw (.unboundVariable name)
    | some (v, ty) =>
      match expected with
      | some e => if ty.compatible e then return (.var v, ty) else fail (.exprMismatch p e)
      | none => return (.var v, ty)
  | .wild => fail (.notAnExpression .wild)
  | .stringStart s => fail (.notAnExpression (.stringStart s))
  | .nat n =>
    match expected with
    | some .byte =>
      if n.toNat < 256 then return (.lit (.byte n.toUInt8), .byte) else fail (.byteTooLarge n)
    | none | some .nat => return (.lit (.nat n), .nat)
    | some ty => fail (.exprMismatch p ty)
  | .string s =>
    match expected with
    | none | some .string => return (.lit (.string s), .string)
    | some ty => fail (.exprMismatch p ty)
  | .bool b =>
    match expected with
    | none | some .bool => return (.lit (.bool b), .bool)
    | some ty => fail (.exprMismatch p ty)
  | .array items =>
    match expected with
    | some (.array elem) => return (.array (← exprs elem items), .array elem)
    | some ty => fail (.exprMismatch p ty)
    | none =>
      match items with
      | [] => fail .emptyArray
      | first :: rest => do
        let (head, elem) ← expr first none
        return (.array (head :: (← exprs elem rest)), .array elem)
  | .fields given =>
    match expected with
    | some (.record fields) => do
      match given.find? fun g => fields.all fun f => f.name ≠ g.1 with
      | some g => fail (.unknownField g.1 (.record fields))
      | none =>
        let es ← fields.mapM fun f => do
          match ← namedExpr f.name f.ty given with
          | some e => return e
          | none =>
            match f.default? with
            | some v => return .lit v
            | none => fail (.missingField f.name (.record fields))
        return (.record es, .record fields)
    | some (.sum alts) =>
      match given with
      | [(name, sub)] => do
        let (i, ty) ← field name alts (.sum alts)
        let (payload, _) ← expr sub (some ty)
        return (.alt (← altIndex i) payload, .sum alts)
      | _ => fail (.exprAlternatives (.sum alts))
    | some ty => fail (.exprMismatch p ty)
    | none => do
      let fields ← inferFields [] given
      return (.record (fields.map (·.2)), .record (fields.map (·.1)))
  | .tuple items =>
    match expected with
    | some (.record fields) =>
      if items.length = fields.length then do
        return (.record (← tupleExprs fields items), .record fields)
      else fail (.exprMismatch p (.record fields))
    | some ty => fail (.exprMismatch p ty)
    | none => fail (.unnamedFields p)

/-- The expressions that patterns are, all of one type. -/
def exprs (elem : Ty) (ps : List Pattern) : Check (List Expr) :=
  match ps with
  | [] => return []
  | p :: ps => do
    let (e, _) ← expr p (some elem)
    return e :: (← exprs elem ps)

/-- The expression that the first pattern of a name is. -/
def namedExpr (name : String) (ty : Ty) (given : List (String × Pattern)) : Check (Option Expr) :=
  match given with
  | [] => return none
  | (n, p) :: rest =>
    if n = name then do
      let (e, _) ← expr p (some ty)
      return some e
    else namedExpr name ty rest

/-- The expressions that patterns are at the types of the fields of a record. -/
def tupleExprs (fields : List Field) (items : List Pattern) : Check (List Expr) :=
  match items, fields with
  | p :: ps, f :: fs => do
    let (e, _) ← expr p (some f.ty)
    return e :: (← tupleExprs fs ps)
  | _, _ => return []

/-- The fields of a record, and their expressions, where no type is given; `seen`
has the names before them. -/
def inferFields (seen : List String) (given : List (String × Pattern)) :
    Check (List (Field × Expr)) :=
  match given with
  | [] => return []
  | (name, p) :: rest => do
    if seen.contains name then fail (.repeatedField name)
    let (e, ty) ← expr p none
    return (.plain name ty, e) :: (← inferFields (name :: seen) rest)
end

/-! ## Sources and statements -/

/-- The definition that a name stands for: a name of the context, a qualified
name, or the end of exactly one qualified name. -/
def resolve (c : TypingContext) (name : String) (version : Option UInt32) :
    Except Unresolved Definition := do
  let known := if version.isNone then c.names.get? name else none
  match known with
  | some p =>
    match c.schema.get? p with
    | some d => return d
    | none => throw (.unknown p.render)
  | none =>
    if name.toList.contains '.' then c.schema.resolve name version
    else
      let d ← c.schema.resolveShort name
      match version with
      | some v => c.schema.resolve d.predicate.name (some v)
      | none => return d

/-- The facts of a definition, with a match for the key and one for the value. -/
def facts (c : TypingContext) (d : Definition) (key value : Option Pattern) :
    Check (Supply × Outcome) := do
  c.enter d
  let k ← match key with
    | some p => c.pattern [] d.key p
    | none => pure .wild
  let v ← match value with
    | some p => c.pattern [valueRoot] d.value p
    | none => pure .wild
  return (.facts d.predicate d.isDerived k v, .fact d.predicate)

/-- The supply that a source is, and what it yields. -/
def supply (c : TypingContext) (s : Source) : Check (Supply × Outcome) := do
  match s with
  | .factId id => return (.factId id, .anyFact)
  | .prim name arg =>
    match Prim.named? name with
    | none => throw (.unresolved (.unknown ("prim." ++ name)))
    | some .length =>
      let (e, ty) ← expr arg none
      match ty with
      | .array _ => return (.prim .length e, .value .nat)
      | ty => fail (.lengthOf ty)
    | some function =>
      let (e, _) ← expr arg (some .string)
      return (.prim function e, .value .string)
  | .expr p =>
    let (e, ty) ← expr p none
    return (.expr e, .ofTy ty)
  | .predicate name version key value =>
    let bare := key.isNone && version.isNone && isVariable name
    if bare && (locate? name (← get).vars).isSome then
      let (e, ty) ← expr (.var name) none
      return (.expr e, .ofTy ty)
    match c.resolve name version with
    | .ok d => c.facts d key value
    | .error (.unknownVersion name v) => throw (.unresolved (.unknownVersion name v))
    | .error e => if bare then throw (.unboundVariable name) else throw (.unresolved e)

/-- The match of a statement's pattern against what its source yields. -/
def binding (c : TypingContext) (bind : Option Pattern) (outcome : Outcome) : Check Match :=
  match bind, outcome with
  | none, _ | some .wild, _ => return .wild
  | some _, .anyFact => fail .factIdMatched
  | some p, .fact q => c.pattern [] (.predicate q) p
  | some p, .value ty => c.pattern [] ty p

/-- The stages of statements and what the last of them yields; `more` says
whether a stage comes after them all. -/
def stages (c : TypingContext) (more : Bool) (outcome : Outcome) :
    List Statement → Check (List Stage × Outcome)
  | [] => return ([], outcome)
  | s :: rest => do
    let (supply, outcome) ← c.supply s.source
    if let .factId _ := supply then
      if more || !rest.isEmpty then fail .factIdNotLast
    let bind ← c.binding s.bind outcome
    let (stages, outcome) ← stages c more outcome rest
    return (⟨supply, bind⟩ :: stages, outcome)

/-- The body that a query is. With a `head` the last stage yields that expression
at that type. -/
def body (c : TypingContext) (q : Query) (head : Option (Pattern × Ty)) (bodies : Bodies) :
    Except Error (Body × Bodies) := do
  let typed : Check (List Stage × Outcome) := do
    let (stages, outcome) ← c.stages head.isSome (.value .unit) q.statements
    match head with
    | none => return (stages, outcome)
    | some (p, ty) =>
      let (e, _) ← expr p (some ty)
      return (stages ++ [⟨.expr e, .wild⟩], .ofTy ty)
  let ((stages, outcome), t) ← typed.run ⟨[], ∅, bodies⟩
  return (⟨t.vars, stages, outcome, t.noExpand⟩, t.bodies)

end TypingContext

/-! ## Derived predicates -/

/-- Type the body of a derived predicate, unless that has been done. `entered`
has the predicates that are being typed, and `budget` says how many more may be
entered. -/
def deriveWithin (s : Schema) (budget : Nat) (entered : List Predicate) (d : Definition)
    (bodies : Bodies) : Except Error Bodies :=
  match d.derivation with
  | none => .ok bodies
  | some derivation =>
    if bodies.contains d.predicate then .ok bodies
    else if entered.contains d.predicate then .error (.type (.recursiveDerivation d.predicate))
    else match budget with
      | 0 => .error (.type (.derivationTooDeep maxDerivations d.predicate))
      | budget + 1 => do
        let context : TypingContext :=
          ⟨s, derivation.scope, deriveWithin s budget (d.predicate :: entered)⟩
        let (body, bodies) ← context.body derivation.body (some (derivation.key, d.key)) bodies
        return bodies.insert d.predicate body

/-- The plan of a query under a schema. -/
def Query.typed (q : Query) (s : Schema) : Except Error Plan := do
  let (main, derived) ← TypingContext.body ⟨s, ∅, deriveWithin s maxDerivations []⟩ q none ∅
  return ⟨main, derived⟩

end Factbase
