/-! # What can be wrong with a set of namespaces

`Registry.ofList`, `Registry.validate`, `Table.ofEntries` and `Table.manifestMarks` refuse with a
`GenerateError`.
-/

namespace Interchange

inductive GenerateError
  | unknownNamespace (name : String)
  | duplicateNamespace (name : String)
  | danglingReference (space target : String)
  | referenceCycle (cycle : List String)
  | emptyChoices (place : String)
  | emptyEnumeration (place : String)
  /-- A type contains itself through required properties, so it has no default. -/
  | recursiveRequired (cycle : List String)
  /-- A type is one of its own variants, so no value would settle on a variant. -/
  | recursiveChoices (cycle : List String)
  | manifestNotObject (name kind : String)
  | unsupportedManifestProperty (owner key kind : String)
  deriving Repr, DecidableEq

def GenerateError.message : GenerateError → String
  | .unknownNamespace name => "unknown namespace '" ++ name ++ "'"
  | .duplicateNamespace name => "namespace '" ++ name ++ "' is registered twice"
  | .danglingReference space target => "'" ++ space ++ "' references unknown type '" ++ target ++ "'"
  | .referenceCycle cycle => "reference cycle detected: " ++ " -> ".intercalate cycle
  | .emptyChoices place => "'" ++ place ++ "' declares a choices type with no variants"
  | .emptyEnumeration place => "'" ++ place ++ "' declares an enum with no values"
  | .recursiveRequired cycle =>
    "'" ++ " -> ".intercalate cycle ++ "' contains itself through required properties"
  | .recursiveChoices cycle =>
    "'" ++ " -> ".intercalate cycle ++ "' contains itself through choices variants"
  | .manifestNotObject name kind =>
    "manifest type '" ++ name ++ "' must be an object, but it is: " ++ kind
  | .unsupportedManifestProperty owner key kind =>
    "property type not implemented for manifest key '" ++ key ++ "' of '" ++ owner ++ "': " ++ kind

end Interchange
