import Factbase.Text.Quoted

/-!
# Tokens

The tokens that schema texts and query texts are made of, and the ways
in which a text can fail to be one.
-/

namespace Factbase

/-- A token. -/
inductive Token where
  | name (text : String)
  | nat (value : UInt64)
  | string (text : String)
  | wild
  | leftBrace
  | rightBrace
  | leftBracket
  | rightBracket
  | leftParen
  | rightParen
  | comma
  | colon
  | semicolon
  | equals
  | bar
  | dots
  | dollar
  | arrow
  | endOfInput
deriving DecidableEq, Repr, Inhabited

/-- The text of a token, as error messages show it. -/
def Token.render : Token → String
  | .name text => text
  | .nat value => toString value.toNat
  | .string text => quoted text
  | .wild => "_"
  | .leftBrace => "\x7b"
  | .rightBrace => "\x7d"
  | .leftBracket => "["
  | .rightBracket => "]"
  | .leftParen => "("
  | .rightParen => ")"
  | .comma => ","
  | .colon => ":"
  | .semicolon => ";"
  | .equals => "="
  | .bar => "|"
  | .dots => ".."
  | .dollar => "$"
  | .arrow => "->"
  | .endOfInput => "end of input"

/-- A place in a text, both counts starting at one; columns count characters. -/
structure Position where
  line : Nat
  column : Nat
deriving DecidableEq, Repr, Inhabited

namespace Position

/-- The first place of a text. -/
def start : Position := ⟨1, 1⟩

/-- The place `n` characters further on in the same line. -/
def right (p : Position) (n : Nat) : Position := ⟨p.line, p.column + n⟩

/-- The first place of the next line. -/
def down (p : Position) : Position := ⟨p.line + 1, 1⟩

end Position

/-- A token and the place where it starts. -/
structure Located where
  token : Token
  position : Position
deriving DecidableEq, Repr, Inhabited

/-- Containers may be nested in a text to this depth. -/
def maxNesting : Nat := 128

/-- A query text may have this many bytes. -/
def maxQueryBytes : Nat := 65536

/-- Why a text is refused. -/
inductive SourceFault where
  | unterminatedString
  | unknownEscape (c : Char)
  | newlineInString
  | numberTooLarge (digits : String)
  | unexpectedCharacter (c : Char)
  | tooDeep
  | tooLong
  | expected (token found : Token)
  | expectedKeyword (keyword : String) (found : Token)
  | expectedName (found : Token)
  | expectedPattern (found : Token)
  | expectedFactId (found : Token)
  | expectedItem (found : Token)
  | expectedType (found : Token)
  | expectedDefault (found : Token)
  | unexpected (found : Token)
  | notAPattern
  | unversionedSchema (name : String)
  | qualifiedPredicate (name : String)
deriving DecidableEq, Repr

/-- The message of a fault. -/
def SourceFault.message : SourceFault → String
  | .unterminatedString => "unterminated string"
  | .unknownEscape c => "unknown escape sequence \\" ++ String.singleton c
  | .newlineInString => "newline in string"
  | .numberTooLarge digits => "number too large: " ++ digits
  | .unexpectedCharacter c => "unexpected character " ++ quotedChar c
  | .tooDeep => "nesting deeper than " ++ toString maxNesting ++ " levels"
  | .tooLong => "query exceeds " ++ toString maxQueryBytes ++ " bytes"
  | .expected token found => "expected " ++ token.render ++ ", found " ++ found.render
  | .expectedKeyword keyword found => "expected `" ++ keyword ++ "`, found " ++ found.render
  | .expectedName found => "expected a name, found " ++ found.render
  | .expectedPattern found => "expected a pattern, found " ++ found.render
  | .expectedFactId found => "expected a fact id after `$`, found " ++ found.render
  | .expectedItem found =>
    "expected `import`, `type`, `predicate` or `\x7d`, found " ++ found.render
  | .expectedType found => "expected a type, found " ++ found.render
  | .expectedDefault found => "expected a default literal, found " ++ found.render
  | .unexpected found => "unexpected " ++ found.render
  | .notAPattern => "left side of `=` is not a pattern"
  | .unversionedSchema name => "schema name must be versioned: " ++ name
  | .qualifiedPredicate name => "predicate names are unqualified: " ++ name

/-- A fault and the place it is reported at. -/
structure SourceError where
  position : Position
  fault : SourceFault
deriving DecidableEq, Repr

/-- `parse error at line:column: message` -/
def SourceError.message (e : SourceError) : String :=
  "parse error at " ++ toString e.position.line ++ ":" ++ toString e.position.column ++ ": " ++
    e.fault.message

end Factbase
