import Interchange.Instance.Basic
import Interchange.Plan.Basic

/-! # Members of enumerations by their names

`nameOf` and `ofName` translate between `EnumValue` and the names of an `EnumPlan`.
-/

namespace Interchange.Plan.EnumPlan

/-- The name of a member; empty where there is none. -/
def nameOf (e : EnumPlan) (v : EnumValue) : String :=
  match v.ordinal? with
  | some i => e.members.getD i ""
  | none => ""

/-- The first member of a name, and the value `none` where no member has it. -/
def ofName (e : EnumPlan) (name : String) : EnumValue :=
  match e.members.findIdx? (· == name) with
  | some i => .member i
  | none => .none

def quote (s : String) : String := "\"" ++ s ++ "\""

/-- What is said of a name that `ofName` does not find. -/
def unknownMessage (e : EnumPlan) (name : String) : String :=
  "expected " ++ " or ".intercalate (e.members.map quote) ++ ", got " ++ quote name

end Interchange.Plan.EnumPlan
