import Scriptlet.Number.Binary64

/-!
JSON values as they are read, and what can be wrong with a JSON text.
-/
namespace Scriptlet

namespace Json

/-- A whole number in the range of 64 bits stays one; every other number is a double. -/
inductive Number where
  | integer (n : Int)
  | float (x : Binary64)
  deriving DecidableEq, Repr

inductive Cause where
  | cutList
  | cutObject
  | cutString
  | cutValue
  | expectedColon
  | expectedListEnd
  | expectedObjectEnd
  | expectedWord
  | expectedValue
  | expectedKey
  | invalidEscape
  | invalidNumber
  | numberTooLarge
  | controlCharacter
  | loneSurrogate
  | cutPair
  | trailingComma
  | trailingText
  | tooDeep
  | unsuitable
  deriving DecidableEq, Repr

inductive Cause.Category where
  | cut
  | malformed
  | unsuitable
  deriving DecidableEq, Repr

namespace Cause

def category : Cause → Category
  | .cutList | .cutObject | .cutString | .cutValue => .cut
  | .unsuitable => .unsuitable
  | _ => .malformed

def phrase : Cause → String
  | .cutList => "EOF while parsing a list"
  | .cutObject => "EOF while parsing an object"
  | .cutString => "EOF while parsing a string"
  | .cutValue => "EOF while parsing a value"
  | .expectedColon => "expected `:`"
  | .expectedListEnd => "expected `,` or `]`"
  | .expectedObjectEnd => "expected `,` or `\x7d`"
  | .expectedWord => "expected ident"
  | .expectedValue => "expected value"
  | .expectedKey => "key must be a string"
  | .invalidEscape => "invalid escape"
  | .invalidNumber => "invalid number"
  | .numberTooLarge => "number out of range"
  | .controlCharacter => "control character (\\u0000-\\u001F) found while parsing a string"
  | .loneSurrogate => "lone leading surrogate in hex escape"
  | .cutPair => "unexpected end of hex escape"
  | .trailingComma => "trailing comma"
  | .trailingText => "trailing characters"
  | .tooDeep => "recursion limit exceeded"
  | .unsuitable => "invalid type"

end Cause

/-- A cause, and how many characters were left behind the place where it showed. -/
structure Failure where
  cause : Cause
  left : Nat
  deriving DecidableEq, Repr

namespace Failure

def place (text : List Char) : Nat × Nat :=
  text.foldl (fun (line, column) c => if c = '\n' then (line + 1, 0)
    else (line, column + c.utf8Size)) (1, 0)

def message (f : Failure) (source : String) : String :=
  let read := source.toList.take (source.length - f.left)
  let (line, column) := place read
  f.cause.phrase ++ s!" at line {line} column {column}"

end Failure

end Json

inductive Json where
  | null
  | bool (b : Bool)
  | number (n : Json.Number)
  | text (s : String)
  | array (items : List Json)
  | object (members : List (String × Json))
  deriving Repr

end Scriptlet
