import Interchange.Double.Text
import Interchange.Json.Outline
import Interchange.Text.Quoted

/-! # Errors in documents

An `Error` is a `Cause`, what is wrong, with the `Path` to the place where it is.
-/

namespace Interchange.Document

inductive Step
  | key (name : String)
  | index (i : Nat)
  /-- A member whose key is not known. -/
  | unknown
  deriving Repr, DecidableEq

/-- A path from the root of the document. -/
abbrev Path := List Step

namespace Path

def tailText : Path → String
  | [] => ""
  | .key name :: p => "." ++ name ++ tailText p
  | .index i :: p => "[" ++ toString i ++ "]" ++ tailText p
  | .unknown :: p => ".?" ++ tailText p

/-- Keys are joined by points (`tailText`); the root itself is a point. -/
def text : Path → String
  | [] => "."
  | .key name :: p => name ++ tailText p
  | .unknown :: p => "?" ++ tailText p
  | p => tailText p

end Path

/-- What stands in a place where something else was expected; `Found.mismatch` reports it. -/
inductive Found
  | null
  | bool (b : Bool)
  | number (n : Json.Number)
  | string (s : String)
  | sequence
  | map
  deriving Repr, DecidableEq

def Found.text : Found → String
  | .null => "null"
  | .bool b => "boolean `" ++ (if b then "true" else "false") ++ "`"
  | .number (.int n) => "integer `" ++ toString n ++ "`"
  | .number (.double d) => "floating point `" ++ d.text ++ "`"
  | .string s => "string " ++ Text.quoted s
  | .sequence => "sequence"
  | .map => "map"

inductive Cause
  | malformed (e : Json.SyntaxError)
  | missingField (name : String)
  | duplicateField (name : String)
  | invalidType (found : Found) (expected : String)
  | invalidIndex (found : Nat) (count : Nat)
  | invalidLength (found : Nat) (expected : String)
  | unknownVariant (name : String) (variants : List String)
  deriving Repr, DecidableEq

inductive Category
  /-- The text is no JSON. -/
  | syntactic
  /-- The text ends too early. -/
  | ending
  /-- The JSON value does not fit. -/
  | data
  deriving Repr, DecidableEq

namespace Cause

def category : Cause → Category
  | .malformed e => if e.atEnd then .ending else .syntactic
  | _ => .data

/-- The variants to choose from, as `unknownVariant` lists them. -/
def alternatives : List String → String
  | [a] => "`" ++ a ++ "`"
  | [a, b] => "`" ++ a ++ "` or `" ++ b ++ "`"
  | names => "one of " ++ ", ".intercalate (names.map fun n => "`" ++ n ++ "`")

def message : Cause → String
  | .malformed e => e.message
  | .missingField name => "missing field `" ++ name ++ "`"
  | .duplicateField name => "duplicate field `" ++ name ++ "`"
  | .invalidType found expected => "invalid type: " ++ found.text ++ ", expected " ++ expected
  | .invalidIndex found count =>
    "invalid value: integer `" ++ toString found ++ "`, expected variant index 0 <= i < " ++ toString count
  | .invalidLength found expected => "invalid length " ++ toString found ++ ", expected " ++ expected
  | .unknownVariant name variants => "unknown variant `" ++ name ++ "`, expected " ++ alternatives variants

end Cause

structure Error where
  path : Path
  cause : Cause
  deriving Repr, DecidableEq

def Error.message (e : Error) : String :=
  "invalid IR document at " ++ e.path.text ++ ": " ++ e.cause.message

end Interchange.Document
