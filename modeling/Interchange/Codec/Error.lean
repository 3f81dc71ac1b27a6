import Interchange.Failure
import Interchange.Instance.Error

/-! # What can go wrong when a codec is used

A `CodecError` is a fault of the value (`failed`), of the instance (`wrongInstance`), or of the use
of the codec itself.
-/

namespace Interchange

inductive CodecError
  | unknown (what name space : String)
  | wrongKind (name expected actual : String)
  | notGenerated (name operation : String)
  | wrongInstance (e : InstanceError)
  | failed (f : Failure)
  deriving Repr, DecidableEq

def CodecError.message : CodecError → String
  | .unknown what name space => "no " ++ what ++ " named '" ++ name ++ "' in namespace '" ++ space ++ "'"
  | .wrongKind name expected actual => "'" ++ name ++ "' is " ++ actual ++ ", not " ++ expected
  | .notGenerated name operation => operation ++ " was not generated for '" ++ name ++ "'"
  | .wrongInstance e => e.message
  | .failed f => f.text

end Interchange
