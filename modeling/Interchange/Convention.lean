/-! # Whether failures come with a message

The two conventions under which `Fault.report` turns a fault into a `Failure`.
-/

namespace Interchange

inductive Convention
  /-- Only the kind of a failure is reported. -/
  | silent
  | diagnostic
  deriving Repr, DecidableEq

def Convention.ofErrorMessages (on : Bool) : Convention := if on then .diagnostic else .silent

end Interchange
