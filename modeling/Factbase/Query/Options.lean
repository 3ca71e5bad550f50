import Factbase.Query.Compile
import Factbase.Text.Blank

/-!
# Query options

How results are written, how many there may be, and whether to count the
facts that are looked at.
-/

namespace Factbase

/-- Which references in results are replaced by the facts they refer to. -/
inductive ExpandPolicy where
  | off
  | on
  /-- References to facts of the named predicates. -/
  | only (names : SortedSet String)
  /-- All others. -/
  | allBut (names : SortedSet String)
deriving DecidableEq, Inhabited

namespace ExpandPolicy

/-- Whether names, with a version or without, include a predicate. -/
def mentions (names : SortedSet String) (p : Predicate) : Bool :=
  names.contains p.name || names.contains p.render

/-- Whether references to facts of a predicate are expanded. -/
def expands (policy : ExpandPolicy) (p : Predicate) : Bool :=
  match policy with
  | .off => false
  | .on => true
  | .only names => mentions names p
  | .allBut names => !mentions names p

/-- The parts of a text between commas and blanks that are not empty. -/
def splitNames (cs : List Char) : List String :=
  let (open', done) := cs.foldr (fun c (open', done) =>
    if c = ',' || isBlank c then ([], if open'.isEmpty then done else open' :: done)
    else (c :: open', done)) (([] : List Char), ([] : List (List Char)))
  (if open'.isEmpty then done else open' :: done).map String.ofList

/-- `on`, `off`, names to expand, or `except:` and names not to expand. -/
def read (text : String) : Except TypeFault ExpandPolicy :=
  let cs := trimBlanks text.toList
  let exception := "except:".toList
  if cs = "on".toList then .ok .on
  else if cs = "off".toList then .ok .off
  else if cs.isEmpty then .error .emptyPolicy
  else if exception.isPrefixOf cs then
    .ok (.allBut (.ofList (splitNames (cs.drop exception.length))))
  else .ok (.only (.ofList (splitNames cs)))

def render : ExpandPolicy → String
  | .off => "off"
  | .on => "on"
  | .only names => ",".intercalate names.toList
  | .allBut names => "except:" ++ ",".intercalate names.toList

end ExpandPolicy

/-- The options of a query. Without a limit there may be any number of results. -/
structure QueryOptions where
  mode : SchemaMode
  expand : ExpandPolicy
  limit : Option Nat
  profile : Bool

instance : Inhabited QueryOptions := ⟨⟨.current, .on, none, false⟩⟩

end Factbase
