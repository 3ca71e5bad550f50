import Factbase.Database.Repo
import Factbase.Json.Basic
import Factbase.Query.Basic
import Factbase.Schema.Snapshot
import Factbase.Source.Token
import Factbase.Store.State

/-!
# Errors

Everything that can go wrong, by cause. Each family of causes has one
function that words it, and `Error.message` words them all.
-/

namespace Factbase

/-! ## Staging -/

/-- Why a fact is not staged. -/
inductive StagingFault where
  | notBuilding
  | dangling (id : FactId)
deriving DecidableEq, Repr

def StagingFault.message : StagingFault → String
  | .notBuilding => "fact store is sealed"
  | .dangling id => "not found: referenced fact " ++ id.render

/-! ## Values that come from JSON -/

/-- What was expected where a JSON document does not fit its type. -/
inductive Expected where
  | byte
  | nat
  | bool
  | string
  | array
  | object
  | alternative
deriving DecidableEq, Repr

def Expected.render : Expected → String
  | .byte => "a byte"
  | .nat => "a nat"
  | .bool => "a bool"
  | .string => "a string"
  | .array => "an array"
  | .object => "an object"
  | .alternative => "an alternative"

/-- Where in a document a fault lies: the names on the way to it. -/
def pathText (path : List String) : String :=
  if path.isEmpty then "at top level" else "at field " ++ ".".intercalate path

/-- Why a JSON document is not a value of its type, or a fact entry is not a
fact of its predicate. -/
inductive Rejection where
  | expected (what : Expected) (path : List String) (found : Json)
  | tooLong (path : List String)
  | unknownField (name : String) (path : List String)
  | missingField (path : List String)
  | unknownAlternative (name : String) (path : List String)
  | notOneAlternative (path : List String)
  /-- A reference in the document that does not stand for a fact. -/
  | reference (cause : Rejection) (path : List String)
  | notAFactId
  | notAReference (p : Predicate)
  | labelNotNumber
  | undefinedLabel (label : UInt64)
  | otherPredicate (label : UInt64) (actual : Predicate) (name : String)
  | unknownPredicate (p : Predicate)
  | missingValue
  | definedTwice (label : UInt64)
  | staging (e : StagingFault)
deriving Repr

def Rejection.message : Rejection → String
  | .expected what path found =>
    "expected " ++ what.render ++ " " ++ pathText path ++ ", found " ++ found.compact
  | .tooLong path => "string too long " ++ pathText path
  | .unknownField name path => "unknown field " ++ name ++ " " ++ pathText path
  | .missingField path => "missing field " ++ pathText path
  | .unknownAlternative name path => "unknown alternative " ++ name ++ " " ++ pathText path
  | .notOneAlternative path => "expected exactly one alternative " ++ pathText path
  | .reference cause path => cause.message ++ " " ++ pathText path
  | .notAFactId => "expected a fact id"
  | .notAReference p => "expected a reference to " ++ p.render
  | .labelNotNumber => "fact id must be a number"
  | .undefinedLabel label => "undefined fact id " ++ toString label.toNat
  | .otherPredicate label actual name =>
    "fact id " ++ toString label.toNat ++ " is a " ++ actual.render ++ ", expected a " ++ name
  | .unknownPredicate p => "unknown predicate " ++ p.render
  | .missingValue => "missing value"
  | .definedTwice label => "fact id " ++ toString label.toNat ++ " defined twice"
  | .staging e => e.message

/-! ## Types -/

/-- Why facts stored under one type cannot be read as another. -/
inductive ConversionFault where
  | noDefault (field : String)
  | removedAlternative (name : String)
  | incompatible (source target : Ty)
deriving DecidableEq

def ConversionFault.message : ConversionFault → String
  | .noDefault field => "added field " ++ field ++ " has no default value"
  | .removedAlternative name => "alternative " ++ name ++ " was removed"
  | .incompatible source target => "cannot read " ++ source.render ++ " as " ++ target.render

/-- What does not fit its type, or is otherwise ill-formed. -/
inductive TypeFault where
  -- declarations
  | derivedWithValue (p : Predicate)
  | duplicateAlternative (name : String)
  | duplicateField (name : String)
  | unknownReference (text : String)
  | unknownType (name : String)
  | defaultTooLarge (field : String)
  | defaultMismatch (field : String) (ty : Ty)
  -- values
  | nonconforming (e : Nonconformity)
  | notEncodable (kind : String) (ty : Ty)
  -- conversions
  | conversion (e : ConversionFault)
  | storedFieldMissing
  | storedAlternativeUnknown
  | storedMismatch (kind : String)
  | noStoredDefinition (p : Predicate)
  | unreadable (source target : Predicate) (e : ConversionFault)
  -- queries
  | variableType (name : String) (bound used : Ty)
  | factIdNotLast
  | factIdMatched
  | lengthOf (ty : Ty)
  | recursiveDerivation (p : Predicate)
  | derivationTooDeep (limit : Nat) (p : Predicate)
  | patternMismatch (pattern : Pattern) (ty : Ty)
  | byteTooLarge (n : UInt64)
  | unknownField (name : String) (ty : Ty)
  | tooManyAlternatives
  | fieldCount (expected : Nat) (ty : Ty) (found : Nat)
  | patternAlternatives (ty : Ty)
  | exprMismatch (pattern : Pattern) (ty : Ty)
  | notAnExpression (pattern : Pattern)
  | emptyArray
  | missingField (name : String) (ty : Ty)
  | repeatedField (name : String)
  | unnamedFields (pattern : Pattern)
  | exprAlternatives (ty : Ty)
  -- evaluation
  | noDerivation (p : Predicate)
  | notAFact (v : Value)
  | primArgument (name kind : String)
  -- options
  | unknownMode (text : String)
  | emptyPolicy
  -- databases
  | repo (e : RepoFault)
  | derivedIngest (p : Predicate)
  | rejected (p : Predicate) (index : Nat) (e : Rejection)
  | definitionChanged (p : Predicate) (repo : Repo)
  | nothingToLoad

def TypeFault.message : TypeFault → String
  | .derivedWithValue p => "derived predicate " ++ p.render ++ " cannot have a value type"
  | .duplicateAlternative name => "duplicate alternative: " ++ name
  | .duplicateField name => "duplicate field: " ++ name
  | .unknownReference text => "unknown predicate in type: " ++ text
  | .unknownType name => "unknown type: " ++ name
  | .defaultTooLarge field => "default for " ++ field ++ " out of byte range"
  | .defaultMismatch field ty => "default for " ++ field ++ " does not match type " ++ ty.render
  | .nonconforming e => "expected " ++ e.expected.render ++ ", found " ++ e.found
  | .notEncodable kind ty => "cannot encode " ++ kind ++ " as " ++ ty.render
  | .conversion e => e.message
  | .storedFieldMissing => "stored record is missing a field"
  | .storedAlternativeUnknown => "stored alternative out of range"
  | .storedMismatch kind => "stored " ++ kind ++ " does not match its declared type"
  | .noStoredDefinition p => "no stored definition of " ++ p.render
  | .unreadable source target e =>
    "cannot read " ++ source.render ++ " as " ++ target.render ++ ": type error: " ++ e.message
  | .variableType name bound used =>
    "variable " ++ name ++ " has type " ++ bound.render ++ " but is used as " ++ used.render
  | .factIdNotLast => "a fact id lookup must be the last statement"
  | .factIdMatched => "a fact id lookup cannot be matched"
  | .lengthOf ty => "prim.length expects an array, found " ++ ty.render
  | .recursiveDerivation p => "recursive derived predicate " ++ p.render
  | .derivationTooDeep limit p =>
    "derived predicates nested deeper than " ++ toString limit ++ " at " ++ p.render
  | .patternMismatch pattern ty =>
    "pattern " ++ pattern.render ++ " does not match type " ++ ty.render
  | .byteTooLarge n => toString n.toNat ++ " does not fit in a byte"
  | .unknownField name ty => "unknown field " ++ name ++ " in " ++ ty.render
  | .tooManyAlternatives => "too many alternatives"
  | .fieldCount expected ty found =>
    "expected " ++ toString expected ++ " fields for " ++ ty.render ++ ", found " ++ toString found
  | .patternAlternatives ty =>
    "a pattern for " ++ ty.render ++ " must select exactly one alternative"
  | .exprMismatch pattern ty =>
    "expression " ++ pattern.render ++ " does not have type " ++ ty.render
  | .notAnExpression pattern => pattern.render ++ " is a pattern, not an expression"
  | .emptyArray => "cannot infer the type of an empty array"
  | .missingField name ty => "missing field " ++ name ++ " in " ++ ty.render
  | .repeatedField name => "duplicate field " ++ name
  | .unnamedFields pattern => "cannot infer the type of " ++ pattern.render ++ "; name its fields"
  | .exprAlternatives ty =>
    "an expression of " ++ ty.render ++ " must select exactly one alternative"
  | .noDerivation p => "no derivation compiled for " ++ p.render
  | .notAFact v => "expected a fact result, found " ++ v.render
  | .primArgument name kind => "prim." ++ name ++ " cannot be applied to " ++ kind
  | .unknownMode text => "unknown schema mode " ++ quoted text ++ " (expected current or stored)"
  | .emptyPolicy => "empty expansion policy"
  | .repo e => e.message
  | .derivedIngest p => "cannot ingest facts of derived predicate " ++ p.render
  | .rejected p index e => p.render ++ " fact #" ++ toString index ++ ": " ++ e.message
  | .definitionChanged p db =>
    p.render ++ " has facts in " ++ db.render ++ " but changed in the reloaded schema"
  | .nothingToLoad => "load needs at least one named file"

/-! ## Files and stored data -/

/-- What the file system can answer instead of doing what it is asked. -/
inductive FileFault where
  | notFound
  | exists
  | notADirectory
  | isADirectory
  | nameTooLong
  | nulByte
  | notUtf8
  | notADatabase
deriving DecidableEq, Repr

def FileFault.message : FileFault → String
  | .notFound => "No such file or directory (os error 2)"
  | .exists => "File exists (os error 17)"
  | .notADirectory => "Not a directory (os error 20)"
  | .isADirectory => "Is a directory (os error 21)"
  | .nameTooLong => "File name too long (os error 36)"
  | .nulByte => "file name contained an unexpected NUL byte"
  | .notUtf8 => "stream did not contain valid UTF-8"
  | .notADatabase => "Not a redb database: magic number mismatch"

/-- What went wrong between the program and its storage. -/
inductive StorageFault where
  | file (path : String) (e : FileFault)
  | database (e : FileFault)
  | staleBatch (base next : FactId)
  | nothingLoaded (register : Nat)
  | badFilePath (path : String) (e : FileFault)
  | notRegular (path : String)
  | badOutputDirectory (path : String) (e : FileFault)
  | outputNotADirectory (path : String)
  | noOutputName
deriving DecidableEq, Repr

def StorageFault.message : StorageFault → String
  | .file path e => path ++ ": " ++ e.message
  | .database e => "I/O error: " ++ e.message
  | .staleBatch base next =>
    "stale batch: starts at " ++ base.render ++ ", store is at " ++ next.render
  | .nothingLoaded register => "bytecode: no fact loaded in r" ++ toString register
  | .badFilePath path e => "Invalid file path '" ++ path ++ "': " ++ e.message
  | .notRegular path => "Path '" ++ path ++ "' is not a regular file"
  | .badOutputDirectory path e => "Invalid output directory '" ++ path ++ "': " ++ e.message
  | .outputNotADirectory path => "Output directory '" ++ path ++ "' is not a valid directory"
  | .noOutputName => "Output path has no filename"

/-- Why stored bytes or a configuration cannot be read. -/
inductive FormatFault where
  | headerTooShort
  | badMagic
  | unsupportedVersion (found supported : UInt8)
  | tooLarge (size limit : Nat)
  | malformed
  | noStoredSchema (repo : Repo)
  | badConfiguration
  | configurationTooLarge (path : String) (size limit : Nat)
deriving DecidableEq, Repr

def FormatFault.message : FormatFault → String
  | .headerTooShort => "header too short"
  | .badMagic => "invalid magic bytes"
  | .unsupportedVersion found supported =>
    "unsupported version: " ++ toString found.toNat ++ " (expected " ++ toString supported.toNat ++ ")"
  | .tooLarge size limit =>
    "payload too large: " ++ toString size ++ " bytes (max " ++ toString limit ++ ")"
  | .malformed => "malformed encoding"
  | .noStoredSchema repo => repo.render ++ ": no stored schema"
  | .badConfiguration => "malformed configuration"
  | .configurationTooLarge path size limit =>
    path ++ ": " ++ toString size ++ " bytes exceeds maximum allowed " ++ toString limit ++ " bytes"

/-- What does not exist. -/
inductive Missing where
  | fact (id : FactId)
  | factOf (id : FactId) (repo : Repo)
deriving DecidableEq, Repr

def Missing.message : Missing → String
  | .fact id => "fact " ++ id.render
  | .factOf id repo => "fact " ++ id.render ++ " in " ++ repo.render

/-- Why an operation needs a complete database, or one that was not given up. -/
inductive Unfinished where
  | derivation (p : Predicate)
  | abandoned
  | database (repo : Repo) (state : StoreState)
deriving DecidableEq, Repr

def Unfinished.message : Unfinished → String
  | .derivation p => "derived predicate " ++ p.render ++ " needs a complete database"
  | .abandoned => "build was abandoned"
  | .database repo state => repo.render ++ " is " ++ state.render

/-! ## All errors -/

mutual
/-- Everything that can go wrong. -/
inductive Error where
  | unresolved (e : Unresolved)
  | type (fault : TypeFault)
  | unboundVariable (name : String)
  /-- No answer is ever given: references lead to references in a circle. -/
  | endless
  | duplicatePredicate (p : Predicate)
  | duplicateSchema (id : SchemaId)
  | unknownDependency (id : SchemaId)
  | source (e : SourceError)
  | notFound (what : Missing)
  | alreadyExists (repo : Repo) (state : StoreState)
  | storeSealed
  | staging (e : StagingFault)
  | ingestion (file : String) (reason : IngestionFault)
  | unknownDatabase (repo : Repo)
  | incomplete (why : Unfinished)
  | format (fault : FormatFault)
  | storage (fault : StorageFault)

/-- Why a fact file is refused. -/
inductive IngestionFault where
  | unreadable (e : FileFault)
  | tooLarge (size limit : Nat)
  | notJson
  | rejected (e : Error)
end

mutual
/-- The message of an error. -/
def Error.message : Error → String
  | .unresolved e => e.message
  | .type fault => "type error: " ++ fault.message
  | .unboundVariable name => "unbound variable: " ++ name
  | .endless => "references in a circle"
  | .duplicatePredicate p => "duplicate definition: " ++ p.render
  | .duplicateSchema id => "duplicate definition: schema " ++ id.render
  | .unknownDependency id => "unknown schema dependency: " ++ id.render
  | .source e => e.message
  | .notFound what => "not found: " ++ what.message
  | .alreadyExists repo state =>
    "database already exists: " ++ repo.render ++ " (" ++ state.render ++ ")"
  | .storeSealed => "fact store is sealed"
  | .staging e => e.message
  | .ingestion file reason => file ++ ": " ++ reason.message
  | .unknownDatabase repo => "UnknownDatabase: " ++ repo.render
  | .incomplete why => "database is incomplete: " ++ why.message
  | .format fault => "serialization error: " ++ fault.message
  | .storage fault => "I/O error: " ++ fault.message

def IngestionFault.message : IngestionFault → String
  | .unreadable e => e.message
  | .tooLarge size limit =>
    "file is " ++ toString size ++ " bytes, limit is " ++ toString limit
  | .notJson => "not a fact file"
  | .rejected e => e.message
end

/-- Report a type fault as an error. -/
def orTypeError {α : Type} (r : Except TypeFault α) : Except Error α := r.mapError .type

end Factbase
