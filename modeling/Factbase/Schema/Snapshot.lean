import Factbase.Schema.Declaration
import Factbase.Schema.Ty

/-!
# Schema snapshots

A snapshot is a set of resolved predicate definitions together with the
declarations they came from. Everything else works against a snapshot:
a query is compiled for one, and a database keeps one as the schema of
what it stores.

A predicate `P` declared in schema `ns` at version `V` is `ns.P` at
version `V`. The latest version of a name is the one that the highest
umbrella schema, `all`, makes visible, and otherwise the highest version
there is.
-/

namespace Factbase

/-! ## Definitions -/

/-- How the facts of a derived predicate come about: the expression for a key,
the query that it ranges over, and the short names the query may use. -/
structure Derivation where
  key : Pattern
  body : Query
  scope : SortedMap String Predicate
deriving DecidableEq

/-- The definition of a predicate. The value type is the unit type when facts
have keys only; a derived predicate has a derivation. -/
structure Definition where
  predicate : Predicate
  key : Ty
  value : Ty
  derivation : Option Derivation
deriving DecidableEq

namespace Definition

/-- Whether facts are computed when asked for, rather than stored. -/
def isDerived (d : Definition) : Bool := d.derivation.isSome

/-- The text of a definition. -/
def render (d : Definition) : String :=
  let value := if d.value.isUnit then "" else " -> " ++ d.value.render
  let derivation := match d.derivation with
    | some by' => "\n  " ++ by'.key.render ++ " where " ++ by'.body.render
    | none => ""
  "predicate " ++ d.predicate.render ++ " : " ++ d.key.render ++ value ++ derivation

end Definition

/-! ## Snapshots -/

/-- A declaration and what it makes visible: predicates by short name and type
aliases, its own and inherited ones. -/
structure SchemaInfo where
  decl : SchemaDecl
  exports : SortedMap String Predicate
  aliases : SortedMap String Ty
deriving DecidableEq

/-- A set of resolved definitions and the declarations they came from. -/
structure Schema where
  predicates : SortedMap Predicate Definition
  schemas : SortedMap SchemaId SchemaInfo
deriving DecidableEq

/-- Why a name has no definition. -/
inductive Unresolved where
  | unknown (name : String)
  | unknownVersion (name : String) (version : UInt32)
  | ambiguous (name : String) (candidates : List String)
deriving DecidableEq, Repr

def Unresolved.message : Unresolved → String
  | .unknown name => "unknown predicate: " ++ name
  | .unknownVersion name version =>
    "unknown version of predicate " ++ name ++ ": " ++ toString version.toNat
  | .ambiguous name candidates =>
    "unknown predicate: " ++ name ++ " is ambiguous: " ++ ", ".intercalate candidates

namespace Schema

/-- The snapshot with nothing in it. -/
def empty : Schema := ⟨∅, ∅⟩

instance : Inhabited Schema := ⟨empty⟩

/-- The definition of a predicate. -/
def get? (s : Schema) (p : Predicate) : Option Definition := s.predicates.get? p

/-- The versions of a name, in ascending order. -/
def versions (s : Schema) (name : String) : List Predicate :=
  s.predicates.keys.filter (·.name = name)

/-- The name of umbrella schemas. -/
def umbrellaName : String := "all"

/-- The highest umbrella schema. -/
def umbrella? (s : Schema) : Option SchemaInfo :=
  ((s.schemas.entries.filter (·.1.name = umbrellaName)).getLast?).map (·.2)

/-- The latest version of a name. -/
def latest? (s : Schema) (name : String) : Option Predicate :=
  (s.umbrella?.bind fun info => info.exports.values.find? (·.name = name))
    <|> (s.versions name).getLast?

/-- The definition of a qualified name, at the given version or else the latest. -/
def resolve (s : Schema) (name : String) (version : Option UInt32) :
    Except Unresolved Definition :=
  match version with
  | some v =>
    match s.get? ⟨name, v⟩ with
    | some d => .ok d
    | none => .error (if (s.versions name).isEmpty then .unknown name else .unknownVersion name v)
  | none =>
    match (s.latest? name).bind s.get? with
    | some d => .ok d
    | none => .error (.unknown name)

/-- The names of all predicates, each once, in ascending order. -/
def names (s : Schema) : List String := (s.predicates.keys.map (·.name)).eraseReps

/-- The latest definition of the one qualified name that ends in a short name. -/
def resolveShort (s : Schema) (short : String) : Except Unresolved Definition :=
  match s.names.filter fun n => ('.' :: short.toList).isSuffixOf n.toList with
  | [name] => s.resolve name none
  | [] => .error (.unknown short)
  | candidates => .error (.ambiguous short candidates)

/-- The latest version of every name. -/
def latestPredicates (s : Schema) : List Predicate := s.names.filterMap s.latest?

/-- The predicates whose text, with or without its version, starts with the given one. -/
def withStart (s : Schema) (start : String) : List Predicate :=
  s.predicates.keys.filter fun p =>
    start.toList.isPrefixOf p.name.toList || start.toList.isPrefixOf p.render.toList

end Schema

end Factbase
