import Factbase.Database.Repo
import Factbase.Files.Path
import Factbase.Query.Options

/-!
# Command lines

The arguments of a command line are options and words. An option has a
long name, `--name`, and maybe a letter, `-n`; letters may be written
together. One that takes a value is given it by the next argument, which
must not look like an option, or in the same one: `--name=value`,
`-n=value`, `-nvalue`. After `--` all arguments are words.

The first word is the command. Some options are common to all commands
and may be given before the command as well as after it; what comes after
it goes first. No option may be given twice on the same side.
-/

namespace Factbase

/-- What an option is given. -/
inductive OptionValue where
  | none
  | text
  /-- A text that is not empty. -/
  | path
deriving DecidableEq

/-- An option that may be given. -/
structure OptionForm where
  name : String
  letter : Option Char
  value : OptionValue

/-- What has been given so far. -/
structure Given where
  options : List (String × String)
  words : List String
  /-- The option whose value comes next. -/
  waiting : Option OptionForm
  /-- Only words follow. -/
  wordsOnly : Bool

namespace Given

def nothing : Given := ⟨[], [], none, false⟩

def value? (g : Given) (name : String) : Option String := g.options.lookup name

def has (g : Given) (name : String) : Bool := (g.value? name).isSome

/-- Give an option a value. -/
def give (g : Given) (o : OptionForm) (value : String) : Option Given :=
  if g.has o.name || (o.value = .path && value = "") then none
  else some { g with options := (o.name, value) :: g.options, waiting := none }

/-- Give an option that takes no value. -/
def flag (g : Given) (o : OptionForm) : Option Given :=
  if o.value = .none then g.give o "" else none

/-- Wait for the value of an option. -/
def await (g : Given) (o : OptionForm) : Option Given :=
  if g.has o.name then none else some { g with waiting := some o }

/-- Letters that are written together; a value may follow the last. -/
def readLetters (forms : List OptionForm) (g : Given) : List Char → Option Given
  | [] => some g
  | c :: cs => do
    let o ← forms.find? (·.letter = some c)
    if o.value = .none then readLetters forms (← g.give o "") cs
    else
      match cs with
      | [] => g.await o
      | '=' :: value | value => g.give o (String.ofList value)

/-- An option with a long name. -/
def readLong (forms : List OptionForm) (g : Given) (cs : List Char) : Option Given := do
  let name := String.ofList (cs.takeWhile (· ≠ '='))
  let o ← forms.find? (·.name = name)
  match cs.dropWhile (· ≠ '=') with
  | _ :: value => if o.value = .none then none else g.give o (String.ofList value)
  | [] => if o.value = .none then g.give o "" else g.await o

/-- An argument that does not look like an option. -/
def readWord (g : Given) (word : String) : Option Given :=
  match g.waiting with
  | some o => g.give o word
  | none => some { g with words := g.words ++ [word] }

/-- Whether an argument does not look like an option. -/
def isWord (argument : String) : Bool :=
  match argument.toList with
  | '-' :: _ :: _ => false
  | _ => true

/-- One argument. -/
def read (forms : List OptionForm) (g : Given) (argument : String) : Option Given :=
  if g.wordsOnly then some { g with words := g.words ++ [argument] }
  else
    match argument.toList, g.waiting with
    | ['-', '-'], _ => some { g with wordsOnly := true }
    | '-' :: _ :: _, some _ => none
    | '-' :: '-' :: cs, none => readLong forms g cs
    | '-' :: c :: cs, none => readLetters forms g (c :: cs)
    | _, _ => g.readWord argument

/-- The arguments up to the first word that is not the value of an option, and those
from there on. -/
def readFirst (forms : List OptionForm) : List String → Given → Option (Given × List String)
  | [], g => some (g, [])
  | a :: rest, g =>
    if g.waiting.isNone && !g.wordsOnly && isWord a then some (g, a :: rest)
    else do readFirst forms rest (← read forms g a)

/-- The arguments, none of which waits for a value in the end. -/
def readAll (forms : List OptionForm) (arguments : List String) : Option Given := do
  let g ← arguments.foldlM (read forms) nothing
  if g.waiting.isSome then none else return g

end Given

/-! ## Commands -/

/-- What to do. -/
inductive Command where
  | create (name : String) (hash : Option String) (files : List Path) (finalize : Bool)
  | load (files : List Path) (db : Option Repo)
  | query (db : Repo) (text : String) (limit : Option Nat) (expand : Option ExpandPolicy)
    (mode : Option SchemaMode) (profile debug : Bool)
  | stat (db : Repo)
  | list (filter : Option String)
  | schema (start : Option String) (db : Option Repo) (names : Bool)
  | dump (db : Repo) (output : Option Path)
  | owner (db : Repo) (id : FactId)

/-- A command line. -/
structure Invocation where
  configuration : Option Path
  root : Option Path
  schemas : Option Path
  quiet : Bool
  json : Bool
  command : Command

namespace Invocation

/-- The options that are common to all commands. -/
def commonForms : List OptionForm :=
  [⟨"config", some 'c', .path⟩, ⟨"db-root", some 'D', .path⟩, ⟨"schema-dir", some 'S', .path⟩,
    ⟨"quiet", some 'q', .none⟩, ⟨"json-mode", none, .none⟩]

/-- The options of a command, if there is one of that name. -/
def forms? : String → Option (List OptionForm)
  | "create" => some [⟨"hash", none, .text⟩, ⟨"no-finalize", none, .none⟩]
  | "load" => some [⟨"db", none, .text⟩]
  | "query" => some [⟨"limit", some 'l', .text⟩, ⟨"expand", some 'e', .text⟩,
      ⟨"schema-mode", some 's', .text⟩, ⟨"profile", some 'p', .none⟩, ⟨"debug", none, .none⟩]
  | "stat" => some []
  | "list" => some []
  | "schema" => some [⟨"db", none, .text⟩, ⟨"names", none, .none⟩]
  | "dump" => some [⟨"output", some 'o', .path⟩]
  | "owner" => some []
  | _ => none

/-- An identity. -/
def readRepo (text : String) : Option Repo := (Repo.read text).toOption

/-- A path, which is not empty. -/
def readPath (text : String) : Option Path := if text = "" then none else some ⟨text⟩

/-- The value that an option was given, if it was. -/
def option {α : Type} (g : Given) (name : String) (read : String → Option α) :
    Option (Option α) :=
  (g.value? name).mapM read

/-- The command that is given by its name, options and words. -/
def readCommand (name : String) (g : Given) : Option Command :=
  match name, g.words with
  | "create", name :: files => do
    return .create name (g.value? "hash") (← files.mapM readPath) !(g.has "no-finalize")
  | "load", file :: files => do
    return .load (← (file :: files).mapM readPath) (← option g "db" readRepo)
  | "query", [db, text] => do
    return .query (← readRepo db) text (← option g "limit" fun s => readNumeral? (2 ^ 64) s.toList)
      (← option g "expand" fun s => (ExpandPolicy.read s).toOption)
      (← option g "schema-mode" fun s => (SchemaMode.read s).toOption)
      (g.has "profile") (g.has "debug")
  | "stat", [db] => do return .stat (← readRepo db)
  | "list", [] => some (.list none)
  | "list", [filter] => some (.list (some filter))
  | "schema", words => do
    let start ← match words with
      | [] => some none
      | [start] => some (some start)
      | _ => none
    return .schema start (← option g "db" readRepo) (g.has "names")
  | "dump", [db] => do return .dump (← readRepo db) (← option g "output" readPath)
  | "owner", [db, id] => do return .owner (← readRepo db) ⟨← readUInt64? id.toList⟩
  | _, _ => none

/-- The command line that arguments spell. Without a command the databases are
listed. -/
def read (arguments : List String) : Option Invocation := do
  let (before, rest) ← Given.readFirst commonForms arguments .nothing
  if before.waiting.isSome || !before.words.isEmpty then failure
  let (command, after) ← match rest with
    | [] => pure (.list none, Given.nothing)
    | name :: rest => do
      let g ← Given.readAll (commonForms ++ (← forms? name)) rest
      pure (← readCommand name g, g)
  let path (name : String) : Option Path := ((after.value? name) <|> (before.value? name)).map Path.mk
  let flag (name : String) : Bool := before.has name || after.has name
  return {
    configuration := path "config"
    root := path "db-root"
    schemas := path "schema-dir"
    quiet := flag "quiet"
    json := flag "json-mode"
    command }

end Invocation

end Factbase
