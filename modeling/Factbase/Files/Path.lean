/-!
# Paths

A path is the text that names a file. It is made of parts between
slashes; empty parts and `.` say nothing and are passed over, except that
a path may begin with `.`, and a path that begins with a slash starts at
the root. Cutting a path back to its parent keeps the rest of the text as
it is written, so that messages show it that way.
-/

namespace Factbase

/-- A path as it is written. -/
structure Path where
  text : String
deriving DecidableEq, Repr, Inhabited

namespace Path

/-- The pieces of a text between slashes. -/
def pieces : List Char → List (List Char)
  | [] => [[]]
  | c :: cs =>
    if c = '/' then [] :: pieces cs
    else
      match pieces cs with
      | [] => [[c]]
      | p :: ps => (c :: p) :: ps

/-- The text of some pieces. -/
def joinPieces (ps : List (List Char)) : String :=
  "/".intercalate (ps.map String.ofList)

def isAbsolute (p : Path) : Bool := p.text.toList.head? = some '/'

/-- The pieces that are not empty. -/
def names (p : Path) : List String :=
  ((pieces p.text.toList).filter (!·.isEmpty)).map String.ofList

/-- The steps that a path describes. A slash at the end asks for a directory, as
`.` does. -/
def steps (p : Path) : List String :=
  if p.text.toList.getLast? = some '/' then p.names ++ ["."] else p.names

/-- The paths from the first part up to each part, with that part. -/
def stages (p : Path) : List (Path × String) :=
  let ps := pieces p.text.toList
  ps.zipIdx.filterMap fun (piece, i) =>
    if piece = [] || (piece = ['.'] && i ≠ 0) then none
    else some (⟨joinPieces (ps.take (i + 1))⟩, String.ofList piece)

/-- The last part, unless it is `.` or `..`. -/
def fileName? (p : Path) : Option String :=
  match p.stages.getLast? with
  | some (_, name) => if name = "." || name = ".." then none else some name
  | none => none

/-- The path without its last part. -/
def parent? (p : Path) : Option Path :=
  match p.stages.reverse with
  | [] => none
  | [_] => some ⟨if p.isAbsolute then "/" else ""⟩
  | _ :: (q, _) :: _ => some q

/-- The path and its parents, longest first. -/
def ancestors (p : Path) : List Path :=
  match p.stages.reverse with
  | [] => []
  | _ :: shorter => p :: shorter.map (·.1)

/-- A path from a directory. -/
def join (p : Path) (name : String) : Path :=
  if name.toList.head? = some '/' then ⟨name⟩
  else if p.text.isEmpty || p.text.toList.getLast? = some '/' then ⟨p.text ++ name⟩
  else ⟨p.text ++ "/" ++ name⟩

/-- A file name cut at its last dot. A dot in front is part of the name. -/
def cutName (name : String) : String × Option String :=
  let tail := name.toList.reverse.takeWhile (· ≠ '.')
  match name.toList.reverse.drop tail.length with
  | '.' :: c :: stem => (String.ofList (c :: stem).reverse, some (String.ofList tail.reverse))
  | _ => (name, none)

/-- The file name without its extension. -/
def stem? (p : Path) : Option String := p.fileName?.map fun name => (cutName name).1

/-- What follows the last dot of the file name. -/
def extension? (p : Path) : Option String := p.fileName?.bind fun name => (cutName name).2

end Path

end Factbase
