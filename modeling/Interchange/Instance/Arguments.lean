import Interchange.Instance.Populate
import Interchange.Instance.Serialize

/-! # Arguments by position

`readArguments` reads them into a parameter object, and `writeArguments` writes them from one.
-/

namespace Interchange

open Plan

/-- Whether so many arguments suit the parameters: where all are required there is one for each,
where none is required any number up to that will do, and otherwise there are enough for the
required ones. -/
def Plan.ObjectOf.takesCount {α : Type} (params : ObjectOf α) (count : Nat) : Bool :=
  let total := params.properties.length
  let required := params.properties.countP (!·.optional)
  if required = total then count = total
  else if required = 0 then count ≤ total
  else required ≤ count ∧ count ≤ total

namespace Table

/-- An argument that is null counts as not given. -/
def given? : Option Value → Option Value
  | some .null => none
  | v => v

def populateArguments (t : Table) : List PropertyPlan → List Value → Object → Outcome Object
  | [], _, out => .done out
  | p :: ps, args, out =>
    (t.populateProperty p (given? args.head?) out).andThen (t.populateArguments ps args.tail)

/-- Reads arguments, of which there must be enough and not too many (`takesCount`). -/
def readArguments (t : Table) (params : ObjectPlan) (args : List Value) : Except Fault Object :=
  if params.takesCount args.length then
    (t.populateArguments params.properties args (t.newObject params)).toExcept
  else .error (.argumentCount params.properties.length args.length)

/-- Writes the parameters that are present, the values of `serializeFields` without their keys. -/
def writeArguments (t : Table) (params : ObjectPlan) (x : Object) : Except InstanceError (List Value) :=
  (t.serializeFields params.properties x params.name).map (·.map (·.2))

end Table

end Interchange
