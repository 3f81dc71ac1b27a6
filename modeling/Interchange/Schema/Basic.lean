import Interchange.Dict

/-! # Schemas

A `Namespace` declares types, functions and events by name. A type (`Ty`) refers to another one by
name, `Name` within its namespace and `namespace.Name` across.
-/

namespace Interchange.Schema

/-- Where the values of a type come from; `Operations.ofOrigin` says what that asks of it. -/
structure Origin where
  fromJson : Bool := false
  fromClient : Bool := false
  fromManifest : Bool := false
  deriving Repr, DecidableEq

structure PropertyOf (α : Type) where
  name : String
  optional : Bool
  type : α
  deriving Repr, DecidableEq

inductive Kind (α : Type)
  | boolean
  | integer
  | int64
  | double
  | string
  | any
  | binary
  | object (properties : Dict (PropertyOf α)) (additional : Option α)
  | array (items : α)
  | choices (variants : List α)
  | enumeration (members : List String)
  | function (serializable : Bool)
  | reference (target : String)
  deriving Repr

structure Ty where
  name : Option String
  kind : Kind Ty
  origin : Origin
  deriving Repr

abbrev Property := PropertyOf Ty

/-- The kinds by themselves, without the parts of `Kind`, in the order in which documents number
them. -/
inductive Tag
  | boolean | integer | int64 | double | string | any | binary
  | object | array | choices | enumeration | function | reference
  deriving Repr, DecidableEq

namespace Tag

def all : List Tag :=
  [.boolean, .integer, .int64, .double, .string, .any, .binary,
    .object, .array, .choices, .enumeration, .function, .reference]

def name : Tag → String
  | .boolean => "boolean"
  | .integer => "integer"
  | .int64 => "int64"
  | .double => "double"
  | .string => "string"
  | .any => "any"
  | .binary => "binary"
  | .object => "object"
  | .array => "array"
  | .choices => "choices"
  | .enumeration => "enum"
  | .function => "function"
  | .reference => "ref"

end Tag

def Kind.tag {α : Type} : Kind α → Tag
  | .boolean => .boolean
  | .integer => .integer
  | .int64 => .int64
  | .double => .double
  | .string => .string
  | .any => .any
  | .binary => .binary
  | .object _ _ => .object
  | .array _ => .array
  | .choices _ => .choices
  | .enumeration _ => .enumeration
  | .function _ => .function
  | .reference _ => .reference

/-- The name of a kind in labels and messages, that of its `tag`. -/
def Kind.name {α : Type} (k : Kind α) : String := k.tag.name

def Kind.isReference {α : Type} (k : Kind α) : Bool := k.tag == .reference

structure FunctionDecl where
  name : String
  params : List Property
  /-- The parameters of the callback, for a function that has one. -/
  results : Option (List Property)
  deriving Repr

structure EventDecl where
  name : String
  params : List Property
  deriving Repr

structure Namespace where
  name : String
  types : Dict Ty
  /-- The type of the manifest; it has to be an object. -/
  manifest : Option Ty
  functions : Dict FunctionDecl
  events : Dict EventDecl
  errorMessages : Bool
  deriving Repr

end Interchange.Schema
