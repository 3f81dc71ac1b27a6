import Interchange.Convention
import Interchange.Plan.Enumeration

/-! # Faults and how they are reported

A `Fault` says why a value does not fit a plan. `Fault.report` makes a `Failure` of it: a kind
(`FailureKind`) and, under the diagnostic convention, the text `Fault.message`.
-/

namespace Interchange

inductive FailureKind
  | missingField
  | typeMismatch
  | noVariantMatched
  | unknownMember
  | invalidElement
  | argumentCount
  deriving Repr, DecidableEq

def FailureKind.description : FailureKind → String
  | .missingField => "missing required field"
  | .typeMismatch => "type mismatch"
  | .noVariantMatched => "no choice variant matched"
  | .unknownMember => "unrecognized enum value"
  | .invalidElement => "invalid list element"
  | .argumentCount => "wrong number of arguments"

/-- What is wrong with a value. `key` is the property or variant that was to be read, if any. -/
inductive Fault
  | missing (key : String)
  | mismatch (key : Option String) (expected : String) (found : Value.Kind)
  | noVariant (key : Option String) (labels : List String) (found : Value.Kind)
  | unknownMember (key : Option String) (e : Plan.EnumPlan) (name : String)
  /-- An element of a list. -/
  | element (key : Option String) (index : Nat) (inner : Fault)
  /-- An element of a list of enumeration members, which stays a fault of its own kind. -/
  | member (key : Option String) (index : Nat) (inner : Fault)
  | argumentCount (expected found : Nat)
  deriving Repr, DecidableEq

namespace Fault

def kind : Fault → FailureKind
  | .missing _ => .missingField
  | .mismatch _ _ _ => .typeMismatch
  | .noVariant _ _ _ => .noVariantMatched
  | .unknownMember _ _ _ => .unknownMember
  | .element _ _ _ => .invalidElement
  | .member _ _ inner => inner.kind
  | .argumentCount _ _ => .argumentCount

/-- A message with the key it is about. -/
def keyed (key : Option String) (message : String) : String :=
  match key with
  | some k => "'" ++ k ++ "': " ++ message
  | none => message

/-- The message of a fault in an element, inside its list; `keyed` does the same for a single value.
-/
def inList (key : Option String) (index : Nat) (message : String) : String :=
  let text := "Parsing array failed at index " ++ toString index ++ ": " ++ message
  match key with
  | some k => "Error at key '" ++ k ++ "': " ++ text
  | none => text

def message : Fault → String
  | .missing key => "'" ++ key ++ "' is required"
  | .mismatch key expected found => keyed key ("expected " ++ expected ++ ", got " ++ found.name)
  | .noVariant key labels found =>
    keyed key ("expected " ++ " or ".intercalate labels ++ ", got " ++ found.name)
  | .unknownMember key e name => keyed key (e.unknownMessage name)
  | .element key index inner => inList key index inner.message
  | .member key index inner => inList key index inner.message
  | .argumentCount expected found =>
    "expected " ++ toString expected ++ " arguments, got " ++ toString found

end Fault

/-- A `Fault` as it is reported. -/
structure Failure where
  kind : FailureKind
  message : Option String
  deriving Repr, DecidableEq

/-- The message, or `FailureKind.description` where there is none. -/
def Failure.text (f : Failure) : String := f.message.getD f.kind.description

def Fault.report (c : Convention) (f : Fault) : Failure :=
  match c with
  | .silent => ⟨f.kind, none⟩
  | .diagnostic => ⟨f.kind, some f.message⟩

end Interchange
