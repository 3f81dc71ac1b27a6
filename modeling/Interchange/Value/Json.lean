import Interchange.Json.Basic
import Interchange.Value.Basic

/-! # The bridge between values and JSON

JSON has no binary data, which `toJson` writes as a list of numbers, and no numbers that are not
finite, which it writes as null. `ofJson` reads every `Json` value.
-/

namespace Interchange.Value

/-- Integers that fit 32 bits are integers, all other numbers doubles (`Double.ofInt`). -/
def ofNumber : Json.Number → Value
  | .int n => if n = (Int32.ofInt n).toInt then .int (Int32.ofInt n) else .double (.ofInt n)
  | .double d => .double d

mutual

def ofJson : Json → Value
  | .null => .null
  | .bool b => .bool b
  | .number n => ofNumber n
  | .string s => .string s
  | .array items => .list (ofItems items)
  | .object ⟨members⟩ => .dict ⟨ofMembers members⟩

def ofItems : List Json → List Value
  | [] => []
  | j :: js => ofJson j :: ofItems js

def ofMembers : List (String × Json) → List (String × Value)
  | [] => []
  | (k, j) :: ms => (k, ofJson j) :: ofMembers ms

end

mutual

def toJson : Value → Json
  | .null => .null
  | .bool b => .bool b
  | .int n => .number (.int n.toInt)
  | .double d => if d.isFinite then .number (.double d) else .null
  | .string s => .string s
  | .binary bytes => .array (bytes.map fun b => .number (.int b.toNat))
  | .list items => .array (toItems items)
  | .dict ⟨entries⟩ => .object ⟨toMembers entries⟩

def toItems : List Value → List Json
  | [] => []
  | v :: vs => toJson v :: toItems vs

def toMembers : List (String × Value) → List (String × Json)
  | [] => []
  | (k, v) :: es => (k, toJson v) :: toMembers es

end

end Interchange.Value
