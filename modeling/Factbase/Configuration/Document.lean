import Factbase.Configuration.Scalar

/-!
# Configuration documents

A configuration document is a table of settings: `key = value` lines under
`[table]` headers. Keys may be dotted, bare or quoted. Values are texts,
numbers, booleans, dates and times, arrays and inline tables.

A table may be opened by a header, or by dotted keys, but not by both,
and no key may be given twice. A value that is an inline table is closed.
-/

namespace Factbase

/-- The value of a setting. Floating-point numbers, dates and times are kept as they
are spelt, because no setting takes one. -/
inductive Setting where
  | text (s : String)
  | integer (n : Int)
  | float (spelling : String)
  | moment (spelling : String)
  | bool (b : Bool)
  | array (items : List Setting)
  | table (members : List (String × Setting))
deriving Inhabited

/-- How a table came to be. -/
inductive TableOrigin where
  /-- On the way to another one that a header opens. -/
  | passed
  | header
  | dottedKey
deriving DecidableEq

/-- What a key stands for while a document is read. -/
inductive SettingNode where
  | value (v : Setting)
  | table (origin : TableOrigin) (members : List (String × SettingNode))

namespace SettingNode

abbrev Members := List (String × SettingNode)

/-- Give a key that is there another node. -/
def replace (name : String) (n : SettingNode) (ms : Members) : Members :=
  ms.map fun m => if m.1 = name then (name, n) else m

/-- Open the table of a header. -/
def openTable : List String → Members → Option Members
  | [], _ => none
  | [name], ms =>
    match ms.lookup name with
    | none => some (ms ++ [(name, .table .header [])])
    | some (.table .passed inner) => some (replace name (.table .header inner) ms)
    | some _ => none
  | name :: names, ms =>
    match ms.lookup name with
    | none => do return ms ++ [(name, .table .passed (← openTable names []))]
    | some (.table origin inner) => do
      return replace name (.table origin (← openTable names inner)) ms
    | some (.value _) => none

/-- Give a dotted key its value. -/
def assign (v : Setting) : List String → Members → Option Members
  | [], _ => none
  | [name], ms => if (ms.lookup name).isSome then none else some (ms ++ [(name, .value v)])
  | name :: names, ms =>
    match ms.lookup name with
    | none => do return ms ++ [(name, .table .dottedKey (← assign v names []))]
    | some (.table .header _) | some (.value _) => none
    | some (.table origin inner) => do
      return replace name (.table origin (← assign v names inner)) ms

/-- Change the members of an open table. -/
def within (f : Members → Option Members) : List String → Members → Option Members
  | [], ms => f ms
  | name :: names, ms =>
    match ms.lookup name with
    | some (.table origin inner) => do
      return replace name (.table origin (← within f names inner)) ms
    | _ => none

mutual
/-- The setting that a node ends up as. -/
def close : SettingNode → Setting
  | .value v => v
  | .table _ members => .table (closeAll members)

/-- The settings that members end up as. -/
def closeAll : List (String × SettingNode) → List (String × Setting)
  | [] => []
  | (name, n) :: ms => (name, n.close) :: closeAll ms
end

end SettingNode

namespace Setting

/-! ## Blanks and comments -/

def isBlank (c : Char) : Bool := c = ' ' || c = '\t'

/-- Characters that may stand in texts and comments only when escaped. -/
def isControl (c : Char) : Bool := (c.toNat < 0x20 && c ≠ '\t') || c.toNat = 0x7f

/-- Pass over blanks. -/
def blanks : Reader Unit := modify (·.dropWhile isBlank)

/-- What follows blanks, comments and ends of lines. -/
def dropGap (comment : Bool) : List Char → Option (List Char)
  | '\n' :: cs => dropGap false cs
  | '\r' :: '\n' :: cs => dropGap false cs
  | '#' :: cs => dropGap true cs
  | c :: cs =>
    if comment then if isControl c then none else dropGap true cs
    else if isBlank c then dropGap false cs
    else some (c :: cs)
  | [] => some []

/-- Pass over blanks, comments and ends of lines. -/
def gap : Reader Unit := fun cs => (dropGap false cs).map fun rest => ((), rest)

/-- The rest of a line: blanks and maybe a comment. -/
def lineEnd : Reader Unit := do
  blanks
  match ← Reader.peek with
  | none | some '\n' | some '\r' | some '#' => gap
  | some _ => failure

/-! ## Texts -/

/-- The character with a code that may be that of none. -/
def scalar (n : Nat) : Reader Char :=
  if n.isValidChar then return Char.ofNat n else failure

/-- What follows a backslash. -/
def escape : Reader Char := do
  match ← Reader.next with
  | '"' => return '"'
  | '\\' => return '\\'
  | 'b' => return '\x08'
  | 't' => return '\t'
  | 'n' => return '\n'
  | 'f' => return '\x0c'
  | 'r' => return '\r'
  | 'e' => return '\x1b'
  | 'x' => scalar (← Reader.hexNumber 0 2)
  | 'u' => scalar (← Reader.hexNumber 0 4)
  | 'U' => scalar (← Reader.hexNumber 0 8)
  | _ => failure

/-- The characters of a text on one line, up to its closing quote. -/
def lineBody (quote : Char) : Nat → Reader (List Char)
  | 0 => failure
  | fuel + 1 => do
    let c ← Reader.next
    if c = quote then return []
    else if c = '\\' && quote = '"' then return (← escape) :: (← lineBody quote fuel)
    else if isControl c then failure
    else return c :: (← lineBody quote fuel)

/-- The end of a line inside a text, when `c` begins one. -/
def lineBreak (c : Char) : Reader (List Char) := do
  if c = '\n' then return ['\n']
  else if c = '\r' then
    Reader.literal ['\n']
    return ['\r', '\n']
  else failure

/-- A backslash at the end of a line passes over all white space after it. -/
def lineJoin : Reader Unit := do
  blanks
  discard (lineBreak (← Reader.next))
  modify (·.dropWhile fun c => isBlank c || c = '\n' || c = '\r')

/-- The characters of a text on several lines, up to its three closing quotes. One
or two more quotes may stand before those. -/
def blockBody (quote : Char) : Nat → Reader (List Char)
  | 0 => failure
  | fuel + 1 => do
    let quotes ← Reader.takeWhile (· = quote)
    if quotes.length ≥ 3 then
      guard (quotes.length ≤ 5)
      return quotes.drop 3
    let c ← Reader.next
    if c = '\\' && quote = '"' then
      match ← Reader.peek with
      | some ' ' | some '\t' | some '\n' | some '\r' =>
        lineJoin
        return quotes ++ (← blockBody quote fuel)
      | _ =>
        let e ← escape
        return quotes ++ e :: (← blockBody quote fuel)
    else if c = '\n' || c = '\r' then
      let l ← lineBreak c
      return quotes ++ l ++ (← blockBody quote fuel)
    else if isControl c then failure
    else return quotes ++ c :: (← blockBody quote fuel)

/-- The rest of a text on one line, whose opening quote has been taken. -/
def lineText (quote : Char) : Reader String := do
  return String.ofList (← lineBody quote (← get).length)

/-- The rest of a text whose opening quote has been taken. -/
def quotedText (quote : Char) : Reader String := do
  match ← get with
  | c :: d :: rest =>
    if c = quote && d = quote then
      match rest with
      | '\n' :: rest | '\r' :: '\n' :: rest => set rest
      | rest => set rest
      return String.ofList (← blockBody quote ((← get).length + 1))
    else lineText quote
  | _ => lineText quote

/-! ## Keys -/

/-- Characters of bare keys. -/
def isBare (c : Char) : Bool := c.isAlphanum || c = '_' || c = '-'

/-- One part of a key. -/
def keyPart : Reader String := do
  if ← Reader.eat '"' then lineText '"'
  else if ← Reader.eat '\'' then lineText '\''
  else
    let cs ← Reader.takeWhile isBare
    guard !cs.isEmpty
    return String.ofList cs

/-- A dotted key. -/
def keyParts : Nat → Reader (List String)
  | 0 => failure
  | fuel + 1 => do
    blanks
    let part ← keyPart
    blanks
    if ← Reader.eat '.' then return part :: (← keyParts fuel) else return [part]

/-- The longest key, in parts. -/
def maxKeyParts : Nat := 81

def key : Reader (List String) := keyParts maxKeyParts

/-! ## Values -/

/-- Characters of values that are no texts and hold no other values. -/
def isWord (c : Char) : Bool := isBare c || c = '+' || c = '.' || c = ':'

/-- What a word stands for. -/
def ofWord? (word : List Char) : Option Setting :=
  if word = "true".toList then some (.bool true)
  else if word = "false".toList then some (.bool false)
  else if let some n := Scalar.integer? word then some (.integer n)
  else if Scalar.isFloat word then some (.float (String.ofList word))
  else if Scalar.isMoment word then some (.moment (String.ofList word))
  else none

/-- A word. One that goes on after a space is a date with a time. -/
def word : Reader (List Char) := do
  let first ← Reader.takeWhile isWord
  match ← get with
  | ' ' :: c :: _ =>
    if c.isDigit then
      discard Reader.next
      return first ++ ' ' :: (← Reader.takeWhile isWord)
    else return first
  | _ => return first

/-- A value that holds no others. -/
def flatValue : Reader Setting := do
  if ← Reader.eat '"' then return .text (← quotedText '"')
  else if ← Reader.eat '\'' then return .text (← quotedText '\'')
  else ofWord? (← word)

/-- Items separated by commas, up to a closing bracket. A comma may follow the last. -/
def items {α : Type} (closing : Char) (item : Reader α) : Nat → Reader (List α)
  | 0 => failure
  | fuel + 1 => do
    gap
    if ← Reader.eat closing then return []
    let x ← item
    gap
    if ← Reader.eat ',' then return x :: (← items closing item fuel)
    else
      Reader.literal [closing]
      return [x]

/-- A key with its value, and what may stand around the equals sign. -/
def keyed (around : Reader Unit) (value : Reader Setting) : Reader (List String × Setting) := do
  let k ← key
  around
  Reader.literal ['=']
  around
  return (k, ← value)

/-- A value, with arrays and inline tables in one another to a depth. -/
def value : Nat → Reader Setting
  | 0 => flatValue
  | depth + 1 => do
    match ← Reader.peek with
    | some '[' =>
      discard Reader.next
      return .array (← items ']' (value depth) ((← get).length + 1))
    | some '{' =>
      discard Reader.next
      let given ← items '}' (keyed gap (value depth)) ((← get).length + 1)
      let members ← given.foldlM (fun ms g => SettingNode.assign g.2 g.1 ms) []
      return .table (SettingNode.closeAll members)
    | _ => flatValue

/-- How many arrays and inline tables may be in one another. -/
def maxDepth : Nat := 80

/-! ## Documents -/

/-- The header of a table. -/
def header : Reader (List String) := do
  Reader.literal ['[']
  let k ← key
  Reader.literal [']']
  return k

/-- The lines of a document, with what has been read and the table that is open. -/
def lines : Nat → List String → SettingNode.Members → Reader SettingNode.Members
  | 0, _, _ => failure
  | fuel + 1, here, ms => do
    gap
    match ← Reader.peek with
    | none => return ms
    | some '[' =>
      let name ← header
      lineEnd
      lines fuel name (← SettingNode.openTable name ms)
    | some _ =>
      let (k, v) ← keyed blanks (value maxDepth)
      lineEnd
      lines fuel here (← SettingNode.within (SettingNode.assign v k) here ms)

/-- The members of the table that a text spells. A byte order mark may stand in front. -/
def read? (text : String) : Option (List (String × Setting)) := do
  let cs := match text.toList with
    | '\ufeff' :: cs => cs
    | cs => cs
  let (ms, _) ← (lines (cs.length + 1) [] []).run cs
  return SettingNode.closeAll ms

end Setting

end Factbase
