import Factbase.Error

/-!
# Values as JSON

The JSON form of a value is directed by its type: numbers, truth values,
strings and arrays stand for themselves, a record is an object by field
name, and a choice is an object whose only member is the alternative.

How a reference to a fact is written, and what may stand for one, is up
to the caller. Both may keep a state while a value is walked.

Reading is more lenient than writing: a missing field takes its default,
and an alternative without payload may be given by its name alone.
-/

namespace Factbase

/-- How to write a reference: given the fact, the predicate that the type
expects there, and the names of the fields on the way to it. -/
abbrev WriteReference (σ : Type) :=
  FactId → Predicate → List String → StateT σ (Except Error) Json

/-- How to read a reference to a fact of a predicate. -/
abbrev ReadReference (σ : Type) := Json → Predicate → StateT σ (Except Rejection) FactId

/-- The reference `{"id": N}`. -/
def FactId.toJson (id : FactId) : Json := .object [("id", .nat id.number)]

namespace Ty

variable {σ : Type}

/-! ## Writing -/

mutual
/-- The JSON form of a value of a type, found at `path`. -/
def encodeJson (write : WriteReference σ) (path : List String) (ty : Ty) (v : Value) :
    StateT σ (Except Error) Json :=
  match v, ty with
  | .byte n, .byte => return .nat n.toUInt64
  | .nat n, .nat => return .nat n
  | .bool b, .bool => return .bool b
  | .string s, .string => return .string s
  | .fact id, .predicate p => write id p path
  | .array items, .array elem => return .array (← encodeItems write path elem items)
  | .record values, .record fields =>
    if fields.length = values.length then
      return .object (← encodeFields write path fields values)
    else throw (.type (.notEncodable "record" (.record fields)))
  | .alt index payload, .sum alts =>
    match alts[index.toNat]? with
    | some alt =>
      return .object [(alt.name, ← encodeJson write (path ++ [alt.name]) alt.ty payload)]
    | none => throw (.type (.notEncodable "alternative" (.sum alts)))
  | v, ty => throw (.type (.notEncodable v.kind ty))

def encodeItems (write : WriteReference σ) (path : List String) (elem : Ty) (items : List Value) :
    StateT σ (Except Error) (List Json) :=
  match items with
  | [] => return []
  | v :: vs => return (← encodeJson write path elem v) :: (← encodeItems write path elem vs)

def encodeFields (write : WriteReference σ) (path : List String) (fields : List Field)
    (values : List Value) : StateT σ (Except Error) (List (String × Json)) :=
  match values, fields with
  | v :: vs, f :: fs => do
    let j ← encodeJson write (path ++ [f.name]) f.ty v
    return (f.name, j) :: (← encodeFields write path fs vs)
  | _, _ => return []
end

/-- Write every reference as `{"id": N}`. -/
def opaqueReference : WriteReference Unit := fun id _ _ => return id.toJson

/-- The JSON form of a value that leaves references to other facts as they are. -/
def toJson (ty : Ty) (v : Value) : Except Error Json :=
  Prod.fst <$> (ty.encodeJson opaqueReference [] v).run ()

/-! ## Reading -/

/-- The longest string that a fact may hold, in bytes. -/
def maxStringBytes : Nat := 16 * 1024 * 1024

mutual
/-- The value of a type that a document stands for; it was found at `path`. -/
def decodeJson (read : ReadReference σ) (path : List String) (ty : Ty) (j : Json) :
    StateT σ (Except Rejection) Value :=
  match ty with
  | .byte =>
    match j with
    | .nat n =>
      if n.toNat < 256 then return .byte n.toUInt8 else throw (.expected .byte path j)
    | _ => throw (.expected .byte path j)
  | .nat =>
    match j with
    | .nat n => return .nat n
    | _ => throw (.expected .nat path j)
  | .bool =>
    match j with
    | .bool b => return .bool b
    | _ => throw (.expected .bool path j)
  | .string =>
    match j with
    | .string s =>
      if s.utf8ByteSize > maxStringBytes then throw (.tooLong path) else return .string s
    | _ => throw (.expected .string path j)
  | .array elem =>
    match j with
    | .array items => return .array (← items.mapM (decodeJson read path elem))
    | _ => throw (.expected .array path j)
  | .record fields =>
    match j with
    | .object members =>
      match members.find? fun m => fields.all fun f => f.name ≠ m.1 with
      | some m => throw (.unknownField m.1 path)
      | none => return .record (← decodeFields read path fields members)
    | _ => throw (.expected .object path j)
  | .sum alts =>
    match j with
    | .string name =>
      match Field.locate? name alts with
      | some (i, alt) =>
        if alt.ty.isUnit then return .alt (UInt32.ofNat i) .unit
        else throw (.unknownAlternative name path)
      | none => throw (.unknownAlternative name path)
    | .object [(name, payload)] => decodeAlternative read path name payload 0 alts
    | .object _ => throw (.notOneAlternative path)
    | _ => throw (.expected .alternative path j)
  | .predicate p => fun s =>
    match read j p s with
    | .ok (id, s) => .ok (.fact id, s)
    | .error cause => .error (.reference cause path)

/-- The values of fields that members stand for, defaults where there is none. -/
def decodeFields (read : ReadReference σ) (path : List String) (fields : List Field)
    (members : List (String × Json)) : StateT σ (Except Rejection) (List Value) :=
  match fields with
  | [] => return []
  | ⟨name, ty, declared⟩ :: rest => do
    let v ←
      match members.lookup name with
      | some j => decodeJson read (path ++ [name]) ty j
      | none =>
        match (⟨name, ty, declared⟩ : Field).default? with
        | some v => pure v
        | none => throw (.missingField (path ++ [name]))
    return v :: (← decodeFields read path rest members)

/-- The value of the alternative of the given name, the first of `alts` being at
`index`. -/
def decodeAlternative (read : ReadReference σ) (path : List String) (name : String)
    (payload : Json) (index : Nat) (alts : List Field) : StateT σ (Except Rejection) Value :=
  match alts with
  | [] => throw (.unknownAlternative name path)
  | ⟨alt, ty, _⟩ :: rest =>
    if alt = name then
      .alt (UInt32.ofNat index) <$> decodeJson read (path ++ [name]) ty payload
    else decodeAlternative read path name payload (index + 1) rest
end

/-- Read numbers as the ids of facts. -/
def numericReference : ReadReference Unit := fun j _ =>
  match j with
  | .nat n => return ⟨n⟩
  | _ => throw .notAFactId

end Ty

end Factbase
