import Factbase.Json.Binary64

/-!
# JSON

JSON documents. An object keeps the order in which its members came; a
number is a natural number, a negative integer or a floating-point
number, as its text decided.
-/

namespace Factbase

/-- A JSON document. -/
inductive Json where
  | null
  | bool (b : Bool)
  | nat (n : UInt64)
  | negative (magnitude : UInt64)
  | float (x : Binary64)
  | string (s : String)
  | array (items : List Json)
  | object (members : List (String × Json))
deriving Repr, Inhabited

namespace Json

/-- The natural number, if the document is one. -/
def nat? : Json → Option UInt64
  | .nat n => some n
  | _ => none

def string? : Json → Option String
  | .string s => some s
  | _ => none

/-- Bind a member; a name that is already there keeps its place. -/
def setMember (members : List (String × Json)) (name : String) (value : Json) :
    List (String × Json) :=
  match members with
  | [] => [(name, value)]
  | (n, v) :: rest =>
    if n = name then (n, value) :: rest else (n, v) :: setMember rest name value

mutual
/-- The number of containers along the deepest branch. -/
def depth : Json → Nat
  | .array items => depthAll items + 1
  | .object members => depthMembers members + 1
  | _ => 0

def depthAll : List Json → Nat
  | [] => 0
  | j :: js => max j.depth (depthAll js)

def depthMembers : List (String × Json) → Nat
  | [] => 0
  | (_, j) :: ms => max j.depth (depthMembers ms)
end

/-! ## Printing -/

/-- Floating-point numbers are positional from `1e-5` up to below `1e16`. -/
def floatLayout : Binary64.Layout := ⟨-5, 15⟩

/-- A digit of `\u00xx`. -/
def hexDigit (n : Nat) : Char := if n < 10 then Char.ofNat (48 + n) else Char.ofNat (87 + n)

/-- One character of a string: quote, backslash and controls are escaped. -/
def escape (c : Char) : List Char :=
  if c = '"' then ['\\', '"']
  else if c = '\\' then ['\\', '\\']
  else if c = '\x08' then ['\\', 'b']
  else if c = '\x0c' then ['\\', 'f']
  else if c = '\n' then ['\\', 'n']
  else if c = '\r' then ['\\', 'r']
  else if c = '\t' then ['\\', 't']
  else if c.toNat < 0x20 then ['\\', 'u', '0', '0', hexDigit (c.toNat / 16), hexDigit (c.toNat % 16)]
  else [c]

/-- A string between quotes. -/
def stringText (s : String) : String := "\"" ++ String.ofList (s.toList.flatMap escape) ++ "\""

mutual
/-- The document without any space. -/
def compact : Json → String
  | .null => "null"
  | .bool b => if b then "true" else "false"
  | .nat n => toString n.toNat
  | .negative n => "-" ++ toString n.toNat
  | .float x => x.render floatLayout
  | .string s => stringText s
  | .array items => "[" ++ ",".intercalate (compactAll items) ++ "]"
  | .object members => "\x7b" ++ ",".intercalate (compactMembers members) ++ "\x7d"

def compactAll : List Json → List String
  | [] => []
  | j :: js => j.compact :: compactAll js

def compactMembers : List (String × Json) → List String
  | [] => []
  | (name, j) :: ms => (stringText name ++ ":" ++ j.compact) :: compactMembers ms
end

/-- The lines of a container between its brackets, one step further in. -/
def block (indent : String) (left right : String) (items : List String) : String :=
  if items.isEmpty then left ++ right
  else left ++ "\n" ++ ",\n".intercalate (items.map fun i => indent ++ "  " ++ i) ++ "\n" ++ indent ++ right

mutual
/-- The document with one item a line, two blanks of indentation a level. -/
def pretty (j : Json) (indent : String) : String :=
  match j with
  | .array items => block indent "[" "]" (prettyAll items (indent ++ "  "))
  | .object members => block indent "\x7b" "\x7d" (prettyMembers members (indent ++ "  "))
  | .null => "null"
  | .bool b => if b then "true" else "false"
  | .nat n => toString n.toNat
  | .negative n => "-" ++ toString n.toNat
  | .float x => x.render floatLayout
  | .string s => stringText s

def prettyAll (items : List Json) (indent : String) : List String :=
  match items with
  | [] => []
  | j :: js => j.pretty indent :: prettyAll js indent

def prettyMembers (members : List (String × Json)) (indent : String) : List String :=
  match members with
  | [] => []
  | (name, j) :: ms => (stringText name ++ ": " ++ j.pretty indent) :: prettyMembers ms indent
end

end Json

end Factbase
