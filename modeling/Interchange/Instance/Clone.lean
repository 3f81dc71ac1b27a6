import Interchange.Instance.Error
import Interchange.Plan.Table

/-! # Copying instances along their plans

`Table.clone` copies data and checks its shape on the way. Arrays of scalars and enumeration members
are copied in one go, without a look at the kinds of their items (`copiesItems`); all others item by
item.
-/

namespace Interchange.Table

open Plan

/-- Whether arrays of the shape are copied item by item, and so checked item by item. -/
def copiesItems : Shape → Bool
  | .any | .object _ | .choices _ | .array _ | .function false => true
  | _ => false

mutual

def clone (t : Table) (p : Plan) (d : Data) (place : String) : Except InstanceError Data :=
  match t.shape p, d with
  | .boolean, .boolean b => .ok (.boolean b)
  | .integer, .integer n => .ok (.integer n)
  | .int64, .int64 n => .ok (.int64 n)
  | .double, .double d => .ok (.double d)
  | .string, .string s | .function true, .string s => .ok (.string s)
  | .binary, .binary b => .ok (.binary b)
  | .enumeration _, .enumeration m => .ok (.enumeration m)
  | .any, .any v => .ok (.any v)
  | .function false, .function v => .ok (.function v)
  | .array items, .array ds => (t.cloneItems items place 0 ds).map .array
  | .object o, .object x => (t.cloneObject o x place).map .object
  | .choices c, .choice x => (t.cloneChoice c x place).map .choice
  | _, d => .error (.mismatch place (t.kindName p) d.kindName)
termination_by (sizeOf d, 0)
decreasing_by
  · exact .left _ _ (by simp)
  · exact .left _ _ (by simp)
  · exact .left _ _ (by simp)

def cloneItems (t : Table) (items : Plan) (place : String) (i : Nat) (ds : List Data) :
    Except InstanceError (List Data) :=
  match ds with
  | [] => .ok []
  | d :: ds => do
    let d ←
      if copiesItems (t.shape items) then t.clone items d (itemPlace place i)
      else if d.isScalar then .ok d
      else .error (.mismatch (itemPlace place i) (t.kindName items) d.kindName)
    let ds ← t.cloneItems items place (i + 1) ds
    return d :: ds
termination_by (sizeOf ds, 0)
decreasing_by
  · exact .left _ _ (by simp only [List.cons.sizeOf_spec]; omega)
  · exact .left _ _ (by simp only [List.cons.sizeOf_spec]; omega)

def cloneObject (t : Table) (o : ObjectPlan) (x : Object) (place : String) :
    Except InstanceError Object := do
  let fields ← t.cloneFields o.properties x place
  match _ : x.extras with
  | .closed => return ⟨.ofList fields, .closed⟩
  | .any d => return ⟨.ofList fields, .any d⟩
  | .typed d =>
    match o.additional with
    | none => .error (.notClosed place)
    | some p =>
      let extras ← t.cloneExtras p d.entries place
      return ⟨.ofList fields, .typed (.ofList extras)⟩
termination_by (sizeOf x, sizeOf o.properties + 1)
decreasing_by
  · exact .right _ (by omega)
  · refine .left _ _ ?_
    have hx : x.extras = .typed d := ‹_›
    cases x; cases d
    simp only at hx
    subst hx
    simp
    omega

def cloneFields (t : Table) (ps : List PropertyPlan) (x : Object) (place : String) :
    Except InstanceError (List (String × Option Data)) :=
  match ps with
  | [] => .ok []
  | p :: ps =>
    match _ : x.get? p.name with
    | none => do
      let fields ← t.cloneFields ps x place
      return (p.name, none) :: fields
    | some d => do
      let d ← t.clone p.plan d (fieldPlace place p.name)
      let fields ← t.cloneFields ps x place
      return (p.name, some d) :: fields
termination_by (sizeOf x, sizeOf ps)
decreasing_by
  · exact .right _ (by simp only [List.cons.sizeOf_spec]; omega)
  · exact .left _ _ (Data.sizeOf_object_get?_lt ‹_›)
  · exact .right _ (by simp only [List.cons.sizeOf_spec]; omega)

def cloneExtras (t : Table) (p : Plan) (es : List (String × Data)) (place : String) :
    Except InstanceError (List (String × Data)) :=
  match es with
  | [] => .ok []
  | (key, d) :: es => do
    let d ← t.clone p d (fieldPlace place key)
    let es ← t.cloneExtras p es place
    return (key, d) :: es
termination_by (sizeOf es, 0)
decreasing_by
  · exact .left _ _ (by simp only [List.cons.sizeOf_spec, Prod.mk.sizeOf_spec]; omega)
  · exact .left _ _ (by simp only [List.cons.sizeOf_spec]; omega)

/-- Copies the slots of all variants, empty ones too, where `serializeChoice` writes only one. -/
def cloneChoice (t : Table) (c : ChoicesPlan) (x : Choice) (place : String) :
    Except InstanceError Choice :=
  (t.cloneSlots c.variants x 0 place).map (⟨·⟩)
termination_by (sizeOf x, sizeOf c.variants + 1)
decreasing_by exact .right _ (by omega)

def cloneSlots (t : Table) (vs : List VariantPlan) (x : Choice) (i : Nat) (place : String) :
    Except InstanceError (List (Option Data)) :=
  match vs with
  | [] => .ok []
  | v :: vs =>
    match _ : x.get? i with
    | none => do
      let slots ← t.cloneSlots vs x (i + 1) place
      return none :: slots
    | some d => do
      let d ← t.clone v.plan d (variantPlace place v.label)
      let slots ← t.cloneSlots vs x (i + 1) place
      return some d :: slots
termination_by (sizeOf x, sizeOf vs)
decreasing_by
  · exact .right _ (by simp only [List.cons.sizeOf_spec]; omega)
  · exact .left _ _ (Data.sizeOf_choice_get?_lt ‹_›)
  · exact .right _ (by simp only [List.cons.sizeOf_spec]; omega)

end

end Interchange.Table
