/-!
# Why a text is not JSON

A fault is a cause and the place where it was noticed.  Places count lines from 1 and bytes, not
characters, within a line; a line break belongs to the line that it ends.
-/

namespace SyntaxToC.Json

inductive Cause where
  | endInValue
  | endInList
  | endInObject
  | endInString
  | expectedValue
  | expectedWord
  | expectedColon
  | expectedListEnd
  | expectedObjectEnd
  | keyNotString
  | trailingComma
  | trailingCharacters
  | invalidNumber
  | numberOutOfRange
  | controlCharacter
  | invalidEscape
  | loneSurrogate
  | unfinishedPair
  | tooDeep
deriving DecidableEq, Repr

/-- A place in a text: `column` bytes of line `line` have been passed. -/
structure Position where
  line : Nat
  column : Nat
deriving DecidableEq, Repr

structure Fault where
  cause : Cause
  position : Position
deriving DecidableEq, Repr

namespace Position

/-- Before the first character. -/
def start : Position := ⟨1, 0⟩

/-- The place after the first `bytes` bytes of the character `c`. -/
def advance (p : Position) (c : Char) (bytes : Nat) : Position :=
  if c = '\n' ∧ 0 < bytes then ⟨p.line + 1, 0⟩ else ⟨p.line, p.column + bytes⟩

end Position

def Cause.message : Cause → String
  | .endInValue => "EOF while parsing a value"
  | .endInList => "EOF while parsing a list"
  | .endInObject => "EOF while parsing an object"
  | .endInString => "EOF while parsing a string"
  | .expectedValue => "expected value"
  | .expectedWord => "expected ident"
  | .expectedColon => "expected `:`"
  | .expectedListEnd => "expected `,` or `]`"
  | .expectedObjectEnd => "expected `,` or `\x7d`"
  | .keyNotString => "key must be a string"
  | .trailingComma => "trailing comma"
  | .trailingCharacters => "trailing characters"
  | .invalidNumber => "invalid number"
  | .numberOutOfRange => "number out of range"
  | .controlCharacter => "control character (\\u0000-\\u001F) found while parsing a string"
  | .invalidEscape => "invalid escape"
  | .loneSurrogate => "lone leading surrogate in hex escape"
  | .unfinishedPair => "unexpected end of hex escape"
  | .tooDeep => "recursion limit exceeded"

def Fault.message (f : Fault) : String :=
  f.cause.message ++ " at line " ++ toString f.position.line ++
    " column " ++ toString f.position.column

end SyntaxToC.Json
