import Factbase.Source.Token
import Factbase.Text.Blank
import Factbase.Text.Numeral

/-!
# Cutting a text into tokens

White space and comments (`#` and `//`, up to the end of the line)
separate tokens. A qualified name such as `example.Class.1` is one
token: a point continues a name exactly when a name character follows
it, so in `"a"..` and `X..` the two points are a token of their own.

`Lexeme.read` takes one token off the front of a text and says how many
characters it took; `Token.readAll` walks the text with it.
-/

namespace Factbase

/-- A character a name may start with. -/
def isNameStart (c : Char) : Bool := c.isAlpha || c = '_'

/-- A character a name may go on with. -/
def isNameChar (c : Char) : Bool := c.isAlphanum || c = '_'

/-- The token of a single punctuation character. -/
def punctuation? : Char → Option Token
  | '{' => some .leftBrace
  | '}' => some .rightBrace
  | '[' => some .leftBracket
  | ']' => some .rightBracket
  | '(' => some .leftParen
  | ')' => some .rightParen
  | ',' => some .comma
  | ':' => some .colon
  | ';' => some .semicolon
  | '=' => some .equals
  | '|' => some .bar
  | '$' => some .dollar
  | _ => none

/-- The character that an escape letter stands for. -/
def stringEscape? : Char → Option Char
  | 'n' => some '\n'
  | 't' => some '\t'
  | 'r' => some '\r'
  | '"' => some '"'
  | '\\' => some '\\'
  | _ => none

/-- The text of a string after its opening quote at `start`, and how many
characters it takes with the closing quote; `here` is where the text
stands. -/
def readString (start here : Position) : List Char → Except SourceError (List Char × Nat)
  | [] => .error ⟨start, .unterminatedString⟩
  | '"' :: _ => .ok ([], 1)
  | ['\\'] => .error ⟨here, .unterminatedString⟩
  | '\\' :: e :: rest =>
    match stringEscape? e with
    | none => .error ⟨here, .unknownEscape e⟩
    | some c => do
      let (text, taken) ← readString start (here.right 2) rest
      return (c :: text, taken + 2)
  | '\n' :: _ => .error ⟨start, .newlineInString⟩
  | c :: rest => do
    let (text, taken) ← readString start (here.right 1) rest
    return (c :: text, taken + 1)

/-- The characters of a name from its start on. -/
def nameChars : List Char → List Char
  | [] => []
  | [c] => if isNameChar c then [c] else []
  | c :: d :: rest =>
    if isNameChar c || (c = '.' && isNameChar d) then c :: nameChars (d :: rest) else []

/-- The token at the front of a text that starts with neither white space nor
a comment, and how many characters it takes. -/
def Lexeme.read (here : Position) : List Char → Except SourceError (Token × Nat)
  | [] => .ok (.endOfInput, 0)
  | '-' :: '>' :: _ => .ok (.arrow, 2)
  | '.' :: '.' :: _ => .ok (.dots, 2)
  | '"' :: rest => do
    let (text, taken) ← readString here (here.right 1) rest
    return (.string (String.ofList text), taken + 1)
  | c :: rest =>
    match punctuation? c with
    | some token => .ok (token, 1)
    | none =>
      if c.isDigit then
        let digits := (c :: rest).takeWhile Char.isDigit
        match readDigits? (2 ^ 64) digits with
        | some n => .ok (.nat (UInt64.ofNat n), digits.length)
        | none => .error ⟨here, .numberTooLarge (String.ofList digits)⟩
      else if isNameStart c then
        let name := nameChars (c :: rest)
        .ok (if name = ['_'] then .wild else .name (String.ofList name), name.length)
      else .error ⟨here, .unexpectedCharacter c⟩

/-- Whether a comment starts here. -/
def startsComment : List Char → Bool
  | '#' :: _ => true
  | '/' :: '/' :: _ => true
  | _ => false

/-- The tokens of a text that stands at `here`, the end of input last. The
place does not move over a comment: what follows one is a new line. -/
def Token.readFrom (here : Position) (cs : List Char) : Except SourceError (List Located) :=
  match cs with
  | [] => .ok [⟨.endOfInput, here⟩]
  | c :: rest =>
    if c = '\n' then Token.readFrom here.down rest
    else if isBlank c then Token.readFrom (here.right 1) rest
    else if startsComment (c :: rest) then Token.readFrom here (rest.dropWhile (· ≠ '\n'))
    else do
      let (token, taken) ← Lexeme.read here (c :: rest)
      let tokens ← Token.readFrom (here.right taken) (rest.drop (taken - 1))
      return ⟨token, here⟩ :: tokens
termination_by cs.length
decreasing_by
  · simp
  · simp
  · have := (List.dropWhile_sublist (l := rest) (· ≠ '\n')).length_le
    simp only [List.length_cons]; omega
  · simp only [List.length_drop, List.length_cons]; omega

/-- The tokens of a text, the end of input last. -/
def Token.readAll (text : String) : Except SourceError (List Located) :=
  Token.readFrom .start text.toList

end Factbase
