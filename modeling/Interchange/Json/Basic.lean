import Interchange.Dict
import Interchange.Double.Decimal

/-! # JSON values

`Json` keeps the members of an object in the order of the text, repeated keys included;
`Json.canonical` enters them in turn. `Json.SyntaxError` lists the ways in which a text can be
malformed.
-/

namespace Interchange

/-- Numbers keep apart integers and doubles, as they are written. -/
inductive Json.Number
  | int (n : Int)
  | double (d : Double)
  deriving Repr, DecidableEq

inductive Json
  | null
  | bool (b : Bool)
  | number (n : Json.Number)
  | string (s : String)
  | array (items : List Json)
  | object (members : Dict Json)
  deriving Repr, Inhabited

namespace Json

inductive SyntaxError
  | endInValue
  | endInString
  | endInList
  | endInObject
  | expectedValue
  | expectedWord
  | invalidNumber
  | numberOutOfRange
  | trailingComma
  | expectedListEnd
  | expectedObjectEnd
  | expectedColon
  | keyNotString
  | invalidEscape
  | unpairedSurrogate
  | brokenSurrogatePair
  | controlCharacter
  | invalidCodePoint
  | tooDeep
  | trailingCharacters
  deriving Repr, DecidableEq

namespace SyntaxError

/-- The text ended too early, as opposed to going on wrongly. -/
def atEnd : SyntaxError → Bool
  | .endInValue | .endInString | .endInList | .endInObject => true
  | _ => false

def message : SyntaxError → String
  | .endInValue => "EOF while parsing a value"
  | .endInString => "EOF while parsing a string"
  | .endInList => "EOF while parsing a list"
  | .endInObject => "EOF while parsing an object"
  | .expectedValue => "expected value"
  | .expectedWord => "expected ident"
  | .invalidNumber => "invalid number"
  | .numberOutOfRange => "number out of range"
  | .trailingComma => "trailing comma"
  | .expectedListEnd => "expected `,` or `]`"
  | .expectedObjectEnd => "expected `,` or `\x7d`"
  | .expectedColon => "expected `:`"
  | .keyNotString => "key must be a string"
  | .invalidEscape => "invalid escape"
  | .unpairedSurrogate => "lone leading surrogate in hex escape"
  | .brokenSurrogatePair => "unexpected end of hex escape"
  | .controlCharacter => "control character (\\u0000-\\u001F) found while parsing a string"
  | .invalidCodePoint => "invalid unicode code point"
  | .tooDeep => "recursion limit exceeded"
  | .trailingCharacters => "trailing characters"

end SyntaxError

mutual

/-- Every object with its repeated keys entered in turn, by `Dict.ofList`. -/
def canonical : Json → Json
  | .array items => .array (canonicalItems items)
  | .object ⟨members⟩ => .object (.ofList (canonicalMembers members))
  | j => j

def canonicalItems : List Json → List Json
  | [] => []
  | j :: js => canonical j :: canonicalItems js

def canonicalMembers : List (String × Json) → List (String × Json)
  | [] => []
  | (k, j) :: ms => (k, canonical j) :: canonicalMembers ms

end

end Json

end Interchange
