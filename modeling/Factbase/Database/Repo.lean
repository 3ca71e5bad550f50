import Factbase.SortedMap
import Factbase.Text.Numeral
import Factbase.Text.Quoted

/-!
# Database identities

A database is identified by a name and a hash, written `name/hash`. Both
serve as directory names, so they are made of letters, digits, `-`, `_`
and `.` only, and are neither `.` nor `..`.
-/

namespace Factbase

/-- The identity of a database. -/
structure Repo where
  name : String
  hash : String
deriving DecidableEq, Repr, Inhabited

/-- Why a text is no identity. -/
inductive RepoFault where
  | noSlash (text : String)
  | badName (text : String)
  | badHash (text : String)
deriving DecidableEq, Repr

def RepoFault.message : RepoFault → String
  | .noSlash text => "expected name/hash, found " ++ quoted text
  | .badName text => "invalid database name " ++ quoted text
  | .badHash text => "invalid database hash " ++ quoted text

namespace Repo

instance : Ord Repo := ⟨compareLex (compareOn name) (compareOn hash)⟩

instance : Std.TransOrd Repo :=
  inferInstanceAs (Std.TransCmp (compareLex (compareOn name) (compareOn hash)))

instance : Std.LawfulEqOrd Repo where
  eq_of_compare {a b} h := by
    have h : (compareOn name a b).then (compareOn hash a b) = .eq := h
    simp only [Ordering.then_eq_eq, compareOn, Std.LawfulEqOrd.compare_eq_iff_eq] at h
    cases a; cases b; simp_all

/-- `name/hash` -/
def render (r : Repo) : String := r.name ++ "/" ++ r.hash

/-- Whether a text can be a name or a hash. -/
def isComponent (s : String) : Bool :=
  s ≠ "" && s ≠ "." && s ≠ ".." &&
    s.toList.all fun c => c.isAlphanum || c = '-' || c = '_' || c = '.'

def checkName (s : String) : Except RepoFault Unit :=
  if isComponent s then .ok () else .error (.badName s)

def checkHash (s : String) : Except RepoFault Unit :=
  if isComponent s then .ok () else .error (.badHash s)

/-- The identity that `name/hash` spells. -/
def read (text : String) : Except RepoFault Repo :=
  match splitFirst '/' text.toList with
  | none => .error (.noSlash text)
  | some (name, hash) => do
    checkName (String.ofList name)
    checkHash (String.ofList hash)
    return ⟨String.ofList name, String.ofList hash⟩

/-- Whether a filter selects the identity: the whole of it when it has a slash,
else a start of its name. -/
def matchesFilter (r : Repo) (filter : String) : Bool :=
  match splitFirst '/' filter.toList with
  | some (name, hash) => r.name = String.ofList name && r.hash = String.ofList hash
  | none => filter.toList.isPrefixOf r.name.toList

end Repo

end Factbase
