import Factbase.Configuration.Document
import Factbase.Files.Documents
import Factbase.Query.Options

/-!
# Settings

Settings come from a configuration file, and options of the command line
go before them. Keys that mean nothing are refused, so that a misspelt
one does not go unnoticed.
-/

namespace Factbase

/-- What a configuration file says about queries. -/
structure QueryDefaults where
  limit : Option Nat
  expand : Option String
  mode : Option SchemaMode
  profile : Option Bool

namespace QueryDefaults

def empty : QueryDefaults := ⟨none, none, none, none⟩

instance : Inhabited QueryDefaults := ⟨empty⟩

def readLimit : Setting → Option Nat
  | .integer n => if 0 ≤ n ∧ n < 2 ^ 64 then some n.toNat else none
  | _ => none

def readText : Setting → Option String
  | .text s => some s
  | _ => none

def readBool : Setting → Option Bool
  | .bool b => some b
  | _ => none

/-- The mode that a name stands for. -/
def modeNamed (name : String) : Option SchemaMode := (SchemaMode.read name).toOption

/-- A mode is its name, or a table that gives the name nothing. -/
def readMode : Setting → Option SchemaMode
  | .text s => modeNamed s
  | .table [(name, .table [])] | .table [(name, .array [])] => modeNamed name
  | _ => none

/-- One member of the table. -/
def readMember (q : QueryDefaults) : String × Setting → Option QueryDefaults
  | ("limit", v) => do return { q with limit := some (← readLimit v) }
  | ("expand", v) => do return { q with expand := some (← readText v) }
  | ("schema_mode", v) => do return { q with mode := some (← readMode v) }
  | ("profile", v) => do return { q with profile := some (← readBool v) }
  | _ => none

/-- The names of the members, in the order in which an array gives their values. -/
def memberNames : List String := ["limit", "expand", "schema_mode", "profile"]

/-- The table, which may also be an array of the values of its members. -/
def read : Setting → Option QueryDefaults
  | .table ms => ms.foldlM readMember empty
  | .array vs => (memberNames.zip vs).foldlM readMember empty
  | _ => none

/-- The options of a query that nothing else is said about. -/
def options (q : QueryDefaults) : Except Error QueryOptions := do
  let expand ← match q.expand with
    | some text => orTypeError (ExpandPolicy.read text)
    | none => pure .on
  return ⟨q.mode.getD .current, expand, q.limit, q.profile.getD false⟩

end QueryDefaults

/-- What a configuration file says. -/
structure Configuration where
  root : Option Path
  schemas : Option Path
  query : QueryDefaults
deriving Inhabited

namespace Configuration

/-- What an empty file says. -/
def empty : Configuration := ⟨none, none, .empty⟩

/-- One member of the table. -/
def readMember (c : Configuration) : String × Setting → Option Configuration
  | ("db_root", .text s) => some { c with root := some ⟨s⟩ }
  | ("schema_dir", .text s) => some { c with schemas := some ⟨s⟩ }
  | ("query", v) => do return { c with query := ← QueryDefaults.read v }
  | _ => none

/-- What a text says. -/
def ofText (text : String) : Except Error Configuration :=
  match (Setting.read? text).bind fun ms => ms.foldlM readMember empty with
  | some c => .ok c
  | none => .error (.format .badConfiguration)

/-- The file that is read when none is named, if it is there. -/
def defaultFile : Path := ⟨"factdb.toml"⟩

/-- The largest configuration file, in bytes. -/
def maxBytes : Nat := 1024 * 1024

/-- What the file that a path names says. -/
def ofFile (files : FileTree) (p : Path) : Except Error Configuration := do
  let (_, node) ← atPath p (files.find p)
  let size := FileTree.sizeOf node
  if size > maxBytes then throw (.format (.configurationTooLarge p.text size maxBytes))
  ofText (← atPath p (FileTree.textOf node))

/-- What the configuration file says; one that is named must be there. -/
def load (files : FileTree) (named : Option Path) : Except Error Configuration :=
  match named with
  | some p => ofFile files p
  | none => if files.isFile defaultFile then ofFile files defaultFile else .ok empty

end Configuration

/-- What a command runs with. Without a directory of schema files only the builtin
schema is known. -/
structure Settings where
  root : Path
  schemas : Option Path
  query : QueryOptions
deriving Inhabited

namespace Settings

/-- The directory of the databases when nothing else is said. -/
def defaultRoot : Path := ⟨"factdb-db"⟩

/-- The settings of a configuration under those of the command line. -/
def resolve (c : Configuration) (root schemas : Option Path) : Except Error Settings := do
  return ⟨(root <|> c.root).getD defaultRoot, schemas <|> c.schemas, ← c.query.options⟩

end Settings

end Factbase
