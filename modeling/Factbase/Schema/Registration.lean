import Factbase.Error
import Factbase.Schema.Snapshot

/-!
# Registering declarations

Registration resolves the names of a declaration and adds its predicates
to a snapshot. It changes nothing that is there: a declaration whose id
is taken is either the one that was registered, and then there is
nothing to do, or it is refused.

A schema sees what it inherits, which it also passes on, then what it
imports, then its own predicates in any order, and its own aliases in
the order they are declared.
-/

namespace Factbase

/-- The names that a declaration may use: type aliases, and predicates by short
name. -/
structure Scope where
  aliases : SortedMap String Ty
  predicates : SortedMap String Predicate

namespace SchemaDecl

/-- The predicate that a declaration gives a short name. -/
def predicateNamed (d : SchemaDecl) (short : String) : Predicate :=
  ⟨d.name ++ "." ++ short, d.version⟩

/-- The short names that a declaration defines. -/
def shortNames (d : SchemaDecl) : List String :=
  d.items.filterMap fun
    | .predicate name _ _ _ => some name
    | .alias _ _ => none

/-- The predicates that a declaration defines, which must differ. -/
def ownPredicates (d : SchemaDecl) : Except Error (SortedSet Predicate) :=
  d.shortNames.foldlM (fun (own : SortedSet Predicate) short =>
    let p := d.predicateNamed short
    if own.contains p then .error (.duplicatePredicate p) else .ok (own.add p)) ∅

/-- The predicates that a declaration defines, by short name, on top of others. -/
def addOwn (d : SchemaDecl) (m : SortedMap String Predicate) : SortedMap String Predicate :=
  d.shortNames.foldl (fun m short => m.insert short (d.predicateNamed short)) m

end SchemaDecl

/-- The value of a literal as the default of a field. -/
def Literal.valueAt (field : String) (ty : Ty) : Literal → Except TypeFault Value
  | .nat n =>
    match ty with
    | .nat => .ok (.nat n)
    | .byte => if n.toNat < 256 then .ok (.byte n.toUInt8) else .error (.defaultTooLarge field)
    | _ => .error (.defaultMismatch field ty)
  | .string s =>
    match ty with
    | .string => .ok (.string s)
    | _ => .error (.defaultMismatch field ty)
  | .bool b =>
    match ty with
    | .bool => .ok (.bool b)
    | _ => .error (.defaultMismatch field ty)

namespace Schema

/-! ## The builtin schema -/

/-- Its declaration. -/
def builtinDecl : SchemaDecl := ⟨"sys", 1, [], [], [.predicate "Blob" .string none none]⟩

/-- The snapshot that every other one grows from. -/
def builtin : Schema :=
  let blob : Predicate := ⟨"sys.Blob", 1⟩
  { predicates := .ofList [(blob, ⟨blob, .string, .unit, none⟩)]
    schemas := .ofList [(builtinDecl.id, ⟨builtinDecl, .ofList [("Blob", blob)], ∅⟩)] }

/-! ## Types -/

/-- The type that a name stands for. A versioned name is a predicate. Another
one is an alias, the short name of a predicate, the qualified name of one in
scope, or the latest version of a qualified name. -/
def resolveName (s : Schema) (own : SortedSet Predicate) (scope : Scope) (text : String) :
    Except TypeFault Ty :=
  match splitVersion text with
  | (name, some version) =>
    let p : Predicate := ⟨((scope.predicates.get? name).map (·.name)).getD name, version⟩
    if own.contains p || s.predicates.contains p then .ok (.predicate p)
    else .error (.unknownReference text)
  | (name, none) =>
    match scope.aliases.get? name with
    | some ty => .ok ty
    | none =>
      let found := scope.predicates.get? name
        <|> scope.predicates.values.find? (·.name = name)
        <|> s.latest? name
      match found with
      | some p => .ok (.predicate p)
      | none => .error (.unknownType name)

/-- The alternatives of an enumeration, `seen` being those before them. -/
def enumAlts (seen : List String) : List String → Except TypeFault (List Field)
  | [] => .ok []
  | name :: names => do
    if seen.contains name then throw (.duplicateAlternative name)
    return .plain name .unit :: (← enumAlts (name :: seen) names)

mutual
/-- The type that an expression denotes. -/
def resolveTy (s : Schema) (own : SortedSet Predicate) (scope : Scope) :
    TypeExpr → Except TypeFault Ty
  | .byte => return .byte
  | .nat => return .nat
  | .bool => return .bool
  | .string => return .string
  | .array elem => return .array (← resolveTy s own scope elem)
  | .record fields => return .record (← resolveFields s own scope [] fields)
  | .sum alts => return .sum (← resolveFields s own scope [] alts)
  | .maybe inner =>
    return .sum [.plain "nothing" .unit, .plain "just" (← resolveTy s own scope inner)]
  | .enum names => return .sum (← enumAlts [] names)
  | .named name => resolveName s own scope name

/-- The fields that expressions denote, `seen` being the names before them. -/
def resolveFields (s : Schema) (own : SortedSet Predicate) (scope : Scope) (seen : List String) :
    List FieldExpr → Except TypeFault (List Field)
  | [] => return []
  | ⟨name, expr, literal⟩ :: rest => do
    if seen.contains name then throw (.duplicateField name)
    let ty ← resolveTy s own scope expr
    let declared ← match literal with
      | some l => some <$> l.valueAt name ty
      | none => pure none
    return ⟨name, ty, declared⟩ :: (← resolveFields s own scope (name :: seen) rest)
end

/-! ## Declarations -/

/-- A schema that a declaration builds on. -/
def dependency (s : Schema) (id : SchemaId) : Except Error SchemaInfo :=
  match s.schemas.get? id with
  | some info => .ok info
  | none => .error (.unknownDependency id)

/-- What a declaration inherits; of two schemas with the same name, the later wins. -/
def inherited (s : Schema) (ids : List SchemaId) : Except Error Scope :=
  ids.foldlM (fun scope id => do
    let info ← s.dependency id
    return ⟨scope.aliases.insertMany info.aliases.entries,
      scope.predicates.insertMany info.exports.entries⟩) ⟨∅, ∅⟩

/-- A scope with what a declaration imports, which never hides what is there. -/
def importing (s : Schema) (ids : List SchemaId) (scope : Scope) : Except Error Scope :=
  ids.foldlM (fun scope id => do
    let info ← s.dependency id
    return ⟨info.aliases.entries.foldl (fun m e => m.insertNew e.1 e.2) scope.aliases,
      info.exports.entries.foldl (fun m e => m.insertNew e.1 e.2) scope.predicates⟩) scope

/-- Resolve the aliases among items, each in the scope that the ones before it
leave; `exported` collects them. -/
def resolveAliases (s : Schema) (own : SortedSet Predicate) :
    List SchemaItem → Scope → SortedMap String Ty → Except TypeFault (Scope × SortedMap String Ty)
  | [], scope, exported => return (scope, exported)
  | .predicate _ _ _ _ :: items, scope, exported => resolveAliases s own items scope exported
  | .alias name expr :: items, scope, exported => do
    let ty ← s.resolveTy own scope expr
    resolveAliases s own items { scope with aliases := scope.aliases.insert name ty }
      (exported.insert name ty)

/-- The definition that a predicate item gives. -/
def define (s : Schema) (own : SortedSet Predicate) (scope : Scope) (p : Predicate)
    (key : TypeExpr) (value : Option TypeExpr) (derivation : Option (Pattern × Query)) :
    Except TypeFault Definition := do
  let key ← s.resolveTy own scope key
  let value ← match value with
    | some v => s.resolveTy own scope v
    | none => pure .unit
  match derivation with
  | some (head, body) =>
    if !value.isUnit then throw (.derivedWithValue p)
    return ⟨p, key, value, some ⟨head, body, scope.predicates⟩⟩
  | none => return ⟨p, key, value, none⟩

/-- The definitions that the items of a declaration give. None may differ from
one that is there. -/
def defineAll (s : Schema) (own : SortedSet Predicate) (scope : Scope) (d : SchemaDecl) :
    List SchemaItem → Except Error (List Definition)
  | [] => return []
  | .alias _ _ :: items => defineAll s own scope d items
  | .predicate name key value derivation :: items => do
    let new ← orTypeError (s.define own scope (d.predicateNamed name) key value derivation)
    match s.get? new.predicate with
    | some old => if old ≠ new then throw (.duplicatePredicate new.predicate)
    | none => pure ()
    return new :: (← defineAll s own scope d items)

/-- Register a declaration. -/
def register (s : Schema) (d : SchemaDecl) : Except Error Schema := do
  match s.schemas.get? d.id with
  | some info => if info.decl = d then return s else throw (.duplicateSchema d.id)
  | none =>
    let base ← s.inherited d.inherits
    let scope ← s.importing d.imports base
    let own ← d.ownPredicates
    let exports := d.addOwn base.predicates
    let scope := { scope with predicates := d.addOwn scope.predicates }
    let (scope, aliases) ← orTypeError (s.resolveAliases own d.items scope base.aliases)
    let definitions ← s.defineAll own scope d d.items
    return {
      predicates := s.predicates.insertMany (definitions.map fun new => (new.predicate, new))
      schemas := s.schemas.insert d.id ⟨d, exports, aliases⟩ }

/-- Register declarations in turn. -/
def registerAll (s : Schema) (ds : List SchemaDecl) : Except Error Schema := ds.foldlM register s

/-- The declarations that a text spells. -/
def parse (text : String) : Except Error (List SchemaDecl) :=
  (SchemaDecl.readAll text).mapError .source

/-- The snapshot with the declarations of a text on top of the builtin schema. -/
def ofText (text : String) : Except Error Schema := do
  builtin.registerAll (← parse text)

end Schema

end Factbase
