import Interchange.Instance.Error
import Interchange.Plan.Enumeration
import Interchange.Plan.Table
import Interchange.Value.Merge

/-! # Writing instances as values

`Table.serialize` writes data along its plan, and refuses data that does not have its shape with an
`InstanceError`.
-/

namespace Interchange

open Plan

namespace Serialize

/-- An integer where it fits 32 bits, and a double otherwise, as `Populate.int64?` reads both. -/
def int64Value (n : Int64) : Value :=
  if n.toInt = (Int32.ofInt n.toInt).toInt then .int (.ofInt n.toInt) else .double (.ofInt n.toInt)

end Serialize

namespace Table

open Serialize

mutual

/-- The value of data of a plan; `place` is where the data stands, for the error. -/
def serialize (t : Table) (p : Plan) (d : Data) (place : String) : Except InstanceError Value :=
  match t.shape p, d with
  | .boolean, .boolean b => .ok (.bool b)
  | .integer, .integer n => .ok (.int n)
  | .int64, .int64 n => .ok (int64Value n)
  | .double, .double d => .ok (.double d)
  | .string, .string s | .function true, .string s => .ok (.string s)
  | .binary, .binary b => .ok (.binary b)
  | .enumeration e, .enumeration m => .ok (.string (e.nameOf m))
  | .any, .any v => .ok v
  | .function false, .function v => .ok v
  | .array items, .array ds => (t.serializeItems items place 0 ds).map .list
  | .object o, .object x => (t.serializeObject o x place).map .dict
  | .choices c, .choice x => t.serializeChoice c x place
  | _, d => .error (.mismatch place (t.kindName p) d.kindName)
termination_by (sizeOf d, 0)
decreasing_by
  · exact .left _ _ (by simp)
  · exact .left _ _ (by simp)
  · exact .left _ _ (by simp)

def serializeItems (t : Table) (items : Plan) (place : String) (i : Nat) (ds : List Data) :
    Except InstanceError (List Value) :=
  match ds with
  | [] => .ok []
  | d :: ds => do
    let v ← t.serialize items d (itemPlace place i)
    let vs ← t.serializeItems items place (i + 1) ds
    return v :: vs
termination_by (sizeOf ds, 0)
decreasing_by
  · exact .left _ _ (by simp only [List.cons.sizeOf_spec]; omega)
  · exact .left _ _ (by simp only [List.cons.sizeOf_spec]; omega)

/-- The declared properties in order, and the extra ones after them. -/
def serializeObject (t : Table) (o : ObjectPlan) (x : Object) (place : String) :
    Except InstanceError (Dict Value) := do
  let fields ← t.serializeFields o.properties x place
  match _ : x.extras with
  | .closed => return .ofList fields
  | .any d => return Value.merge (.ofList fields) d
  | .typed d =>
    match o.additional with
    | none => .error (.notClosed place)
    | some p =>
      let extras ← t.serializeExtras p d.entries place
      return .ofList (fields ++ extras)
termination_by (sizeOf x, sizeOf o.properties + 1)
decreasing_by
  · exact .right _ (by omega)
  · refine .left _ _ ?_
    have hx : x.extras = .typed d := ‹_›
    cases x; cases d
    simp only at hx
    subst hx
    simp
    omega

/-- The properties that are present, which required ones have to be. -/
def serializeFields (t : Table) (ps : List PropertyPlan) (x : Object) (place : String) :
    Except InstanceError (List (String × Value)) :=
  match ps with
  | [] => .ok []
  | p :: ps =>
    if p.optional && !Data.engaged (x.get? p.name) then t.serializeFields ps x place
    else
      match _ : x.get? p.name with
      | none => .error (.mismatch (fieldPlace place p.name) (t.kindName p.plan) "nothing")
      | some d => do
        let v ← t.serialize p.plan d (fieldPlace place p.name)
        let vs ← t.serializeFields ps x place
        return (p.name, v) :: vs
termination_by (sizeOf x, sizeOf ps)
decreasing_by
  · exact .right _ (by simp only [List.cons.sizeOf_spec]; omega)
  · exact .left _ _ (Data.sizeOf_object_get?_lt ‹_›)
  · exact .right _ (by simp only [List.cons.sizeOf_spec]; omega)

def serializeExtras (t : Table) (p : Plan) (es : List (String × Data)) (place : String) :
    Except InstanceError (List (String × Value)) :=
  match es with
  | [] => .ok []
  | (key, d) :: es => do
    let v ← t.serialize p d (fieldPlace place key)
    let vs ← t.serializeExtras p es place
    return (key, v) :: vs
termination_by (sizeOf es, 0)
decreasing_by
  · exact .left _ _ (by simp only [List.cons.sizeOf_spec, Prod.mk.sizeOf_spec]; omega)
  · exact .left _ _ (by simp only [List.cons.sizeOf_spec]; omega)

/-- The value of the one variant that a choice has settled on, the only one `engaged`. -/
def serializeChoice (t : Table) (c : ChoicesPlan) (x : Choice) (place : String) :
    Except InstanceError Value :=
  match x.engaged with
  | [i] =>
    match c.variants[i]? with
    | none => .error (.mismatch place "declared variant" "extra slot")
    | some v =>
      match _ : x.get? i with
      | none => .error (.mismatch place (t.kindName v.plan) "nothing")
      | some d => t.serialize v.plan d (variantPlace place v.label)
  | is => .error (.unsettled c.name place is.length)
termination_by (sizeOf x, 0)
decreasing_by exact .left _ _ (Data.sizeOf_choice_get?_lt ‹_›)

end

end Table

end Interchange
