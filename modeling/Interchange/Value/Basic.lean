import Interchange.Dict
import Interchange.Double.Basic

/-! # Structured values

A `Value` is what instances are read from and written to. The partial readers (`int?`, `double?`,
`dict?`, ...) give the content of one kind, and `same` is equality of values.
-/

namespace Interchange

inductive Value
  | null
  | bool (b : Bool)
  | int (n : Int32)
  | double (d : Double)
  | string (s : String)
  | binary (bytes : List UInt8)
  | list (items : List Value)
  | dict (entries : Dict Value)
  deriving Repr, Inhabited

namespace Value

inductive Kind
  | null | bool | int | double | string | binary | list | dict
  deriving Repr, DecidableEq

/-- The word for a kind in diagnostics, where `Fault.mismatch` shows it. -/
def Kind.name : Kind → String
  | .null => "null"
  | .bool => "boolean"
  | .int => "integer"
  | .double => "double"
  | .string => "string"
  | .binary => "binary"
  | .list => "list"
  | .dict => "dictionary"

def kind : Value → Kind
  | .null => .null
  | .bool _ => .bool
  | .int _ => .int
  | .double _ => .double
  | .string _ => .string
  | .binary _ => .binary
  | .list _ => .list
  | .dict _ => .dict

def isNull : Value → Bool
  | .null => true
  | _ => false

def bool? : Value → Option Bool
  | .bool b => some b
  | _ => none

def int? : Value → Option Int32
  | .int n => some n
  | _ => none

/-- An integer is readable as a double, too. -/
def double? : Value → Option Double
  | .double d => some d
  | .int n => some (.ofInt n.toInt)
  | _ => none

def string? : Value → Option String
  | .string s => some s
  | _ => none

def binary? : Value → Option (List UInt8)
  | .binary b => some b
  | _ => none

def list? : Value → Option (List Value)
  | .list xs => some xs
  | _ => none

def dict? : Value → Option (Dict Value)
  | .dict d => some d
  | _ => none

mutual

/-- Equality of values: dictionaries are compared as maps and doubles as numbers. -/
def same : Value → Value → Bool
  | .null, .null => true
  | .bool a, .bool b => a == b
  | .int a, .int b => a == b
  | .double a, .double b => a.same b
  | .string a, .string b => a == b
  | .binary a, .binary b => a == b
  | .list a, .list b => sameItems a b
  | .dict ⟨a⟩, .dict b => a.length == b.size && sameEntries a b
  | _, _ => false

def sameItems : List Value → List Value → Bool
  | [], [] => true
  | a :: as, b :: bs => same a b && sameItems as bs
  | _, _ => false

/-- The entries' half of `same`: each has its counterpart in `b`. -/
def sameEntries : List (String × Value) → Dict Value → Bool
  | [], _ => true
  | (k, a) :: as, b =>
    (match b.get? k with
    | some v => same a v
    | none => false) && sameEntries as b

end

end Value

end Interchange
