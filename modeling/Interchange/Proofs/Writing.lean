import Interchange.Instance.Serialize
import Interchange.Proofs.Data
import Interchange.Proofs.Reading

/-! # What data is written as

Writing is described without errors and without the places that they name: `write?` says what value
data yields, and one equation for each shape says how (`write?_leaf`, `write?_array`,
`write?_object`, `write?_choices`).
-/

namespace Interchange

open Plan Serialize

/-- What data is written as by a shape without parts, the counterpart of `readLeaf?`. -/
def Plan.ShapeOf.writeLeaf? {α : Type} : ShapeOf α → Data → Option Value
  | .boolean, .boolean b => some (.bool b)
  | .integer, .integer n => some (.int n)
  | .int64, .int64 n => some (int64Value n)
  | .double, .double d => some (.double d)
  | .string, .string s | .function true, .string s => some (.string s)
  | .binary, .binary b => some (.binary b)
  | .enumeration e, .enumeration m => some (.string (e.nameOf m))
  | .any, .any v | .function false, .function v => some v
  | _, _ => none

namespace Table

variable {t : Table} {p : Plan} {x : Data} {place : String}

/-- What data is written as by `serialize`. The place is left out, see `toOption_serialize`. -/
def write? (t : Table) (p : Plan) (x : Data) : Option Value := (t.serialize p x "").toOption

/-- The properties that `serializeFields` writes: those that are required, and those with content.
-/
def written (x : Object) (ps : List PropertyPlan) : List PropertyPlan :=
  ps.filter fun q => !q.optional || Data.engaged (x.get? q.name)

/-- What a property is written as, under its name. -/
def writeField? (t : Table) (x : Object) (q : PropertyPlan) : Option (String × Value) :=
  (x.get? q.name).bind fun y => (t.write? q.plan y).map fun v => (q.name, v)

def writeFields? (t : Table) (ps : List PropertyPlan) (x : Object) : Option (List (String × Value)) :=
  (written x ps).mapM (t.writeField? x)

/-- What typed extra properties are written as. -/
def writeEntries? (t : Table) (p : Plan) (es : List (String × Data)) : Option (List (String × Value)) :=
  es.mapM fun e => (t.write? p e.2).map fun v => (e.1, v)

/-- What an object is written as: its `written` properties, and behind them the extra ones. -/
def writeObject? (t : Table) (o : ObjectPlan) (x : Object) : Option (Dict Value) :=
  (t.writeFields? o.properties x).bind fun fields =>
    match x.extras with
    | .closed => some (.ofList fields)
    | .any d => some (Value.merge (.ofList fields) d)
    | .typed d =>
      o.additional.bind fun a => (t.writeEntries? a d.entries).map fun es => .ofList (fields ++ es)

/-- What a choice is written as, if one slot only is `engaged`. -/
def writeChoice? (t : Table) (c : ChoicesPlan) (x : Choice) : Option Value :=
  match x.engaged with
  | [i] => c.variants[i]?.bind fun w => (x.get? i).bind fun y => t.write? w.plan y
  | _ => none

theorem writeChoice?_of_engaged {c : ChoicesPlan} {x : Choice} {i : Nat} (h : x.engaged = [i]) :
    t.writeChoice? c x =
      c.variants[i]?.bind fun w => (x.get? i).bind fun y => t.write? w.plan y := by
  rw [writeChoice?]
  simp only [h]

/-! ## Places

Data is written the same at every place; the place shows in errors only. -/

/-- The data is written the same at every place, by every plan. -/
def Placeless (t : Table) (x : Data) : Prop :=
  ∀ p place, (t.serialize p x place).toOption = t.write? p x

theorem toOption_serialize_leaf (h : (t.shape p).isLeaf = true) (x : Data) (place : String) :
    (t.serialize p x place).toOption = (t.shape p).writeLeaf? x := by
  rw [serialize.eq_def]
  cases hs : t.shape p with
  | array | object | choices => simp [hs, ShapeOf.isLeaf] at h
  | function b => cases b <;> cases x <;> rfl
  | boolean | integer | int64 | double | string | binary | any | enumeration => cases x <;> rfl

theorem toOption_serializeItems {xs : List Data} (h : ∀ x ∈ xs, t.Placeless x) (items : Plan)
    (place : String) (i : Nat) :
    (t.serializeItems items place i xs).toOption = xs.mapM (t.write? items) := by
  induction xs generalizing i with
  | nil =>
    rw [serializeItems]
    rfl
  | cons x xs ih =>
    rw [List.forall_mem_cons] at h
    rw [serializeItems, toOption_bind, h.1, List.mapM_cons]
    simp only [toOption_bind, ih h.2 (i + 1)]
    rfl

theorem toOption_serializeFields {x : Object} (h : ∀ k y, x.get? k = some y → t.Placeless y)
    (ps : List PropertyPlan) (place : String) :
    (t.serializeFields ps x place).toOption = t.writeFields? ps x := by
  induction ps with
  | nil =>
    rw [serializeFields]
    rfl
  | cons q ps ih =>
    rw [serializeFields, writeFields?, written, List.filter_cons]
    cases hq : (q.optional && !Data.engaged (x.get? q.name)) with
    | true =>
      have hw : (!q.optional || Data.engaged (x.get? q.name)) = false := by
        rw [← Bool.not_not (Data.engaged _), ← Bool.not_and, hq, Bool.not_true]
      rw [hw]
      exact ih
    | false =>
      have hw : (!q.optional || Data.engaged (x.get? q.name)) = true := by
        rw [← Bool.not_not (Data.engaged _), ← Bool.not_and, hq, Bool.not_false]
      rw [hw]
      simp only [Bool.false_eq_true, if_false, if_true, List.mapM_cons, writeField?]
      split
      · rename_i hy
        rw [hy]
        rfl
      · rename_i y hy
        rw [hy, toOption_bind, h _ y hy]
        simp only [toOption_bind, ih, Option.bind_some]
        cases t.write? q.plan y <;> rfl

theorem toOption_serializeExtras {es : List (String × Data)} (h : ∀ e ∈ es, t.Placeless e.2)
    (p : Plan) (place : String) :
    (t.serializeExtras p es place).toOption = t.writeEntries? p es := by
  induction es with
  | nil =>
    rw [serializeExtras]
    rfl
  | cons e es ih =>
    rw [List.forall_mem_cons] at h
    rw [serializeExtras, toOption_bind, h.1, writeEntries?, List.mapM_cons]
    simp only [toOption_bind, ih h.2]
    cases t.write? p e.2 <;> rfl

theorem toOption_serializeObject {x : Object} (h : ∀ y, Data.Part y (.object x) → t.Placeless y)
    (o : ObjectPlan) (place : String) :
    (t.serializeObject o x place).toOption = t.writeObject? o x := by
  rw [serializeObject, toOption_bind, toOption_serializeFields fun k y hy => h y (.field hy), writeObject?]
  congr 1
  funext fields
  split <;> rename_i hx
  · simp only [hx]
    rfl
  · simp only [hx]
    rfl
  · rename_i d
    simp only [hx]
    cases o.additional with
    | none => rfl
    | some a =>
      rw [toOption_bind, toOption_serializeExtras fun e he => h e.2 (.extra hx he)]
      exact Option.map_eq_bind.symm

theorem toOption_serializeChoice {x : Choice} (h : ∀ y, Data.Part y (.choice x) → t.Placeless y)
    (c : ChoicesPlan) (place : String) :
    (t.serializeChoice c x place).toOption = t.writeChoice? c x := by
  rw [serializeChoice]
  split
  · rename_i i hi
    rw [writeChoice?_of_engaged hi]
    split
    · rename_i hw
      rw [hw]
      rfl
    · rename_i w hw
      rw [hw, Option.bind_some]
      split
      · rename_i hy
        rw [hy]
        rfl
      · rename_i y hy
        rw [hy, Option.bind_some, h y (.slot hy)]
  · rename_i hi
    rw [writeChoice?]
    split
    · exact (hi _ ‹_›).elim
    · rfl

/-- What data is written as by a shape with parts; with `writeLeaf?` this covers all shapes. -/
def writeParts? (t : Table) : Shape → Data → Option Value
  | .array items, .array xs => (xs.mapM (t.write? items)).map .list
  | .object o, .object x => (t.writeObject? o x).map .dict
  | .choices c, .choice x => t.writeChoice? c x
  | _, _ => none

theorem toOption_serialize_parts (hs : (t.shape p).isLeaf = false)
    (h : ∀ y, Data.Part y x → t.Placeless y) (place : String) :
    (t.serialize p x place).toOption = t.writeParts? (t.shape p) x := by
  rw [serialize.eq_def]
  cases hs' : t.shape p with
  | array items =>
    cases x with
    | array xs =>
      simp only [toOption_map, toOption_serializeItems fun y hy => h y (.item hy)]
      rfl
    | _ => rfl
  | object o =>
    cases x with
    | object x =>
      simp only [toOption_map, toOption_serializeObject h]
      rfl
    | _ => rfl
  | choices c =>
    cases x with
    | choice x => exact toOption_serializeChoice h c place
    | _ => rfl
  | boolean | integer | int64 | double | string | binary | any | function | enumeration =>
    simp only [hs'] at hs
    cases hs

theorem placeless (t : Table) (x : Data) : t.Placeless x := by
  have ih : ∀ y, Data.Part y x → t.Placeless y := fun y _ => placeless t y
  intro p place
  rw [write?]
  cases hs : (t.shape p).isLeaf with
  | true => rw [toOption_serialize_leaf hs, toOption_serialize_leaf hs]
  | false => rw [toOption_serialize_parts hs ih, toOption_serialize_parts hs ih]
termination_by sizeOf x
decreasing_by exact Data.Part.sizeOf_lt ‹_›

/-! ## Writing -/

theorem toOption_serialize (t : Table) (p : Plan) (x : Data) (place : String) :
    (t.serialize p x place).toOption = t.write? p x :=
  placeless t x p place

theorem serialize_eq_ok_iff {v : Value} : t.serialize p x place = .ok v ↔ t.write? p x = some v := by
  rw [← toOption_serialize t p x place, toOption_eq_some_iff]

theorem serialize_object {o : ObjectPlan} (h : t.shape p = .object o) (x : Object) :
    t.serialize p (.object x) place = (t.serializeObject o x place).map .dict := by
  rw [serialize.eq_def, h]

theorem serialize_choices {c : ChoicesPlan} (h : t.shape p = .choices c) (x : Choice) :
    t.serialize p (.choice x) place = t.serializeChoice c x place := by
  rw [serialize.eq_def, h]

theorem write?_leaf (h : (t.shape p).isLeaf = true) (x : Data) :
    t.write? p x = (t.shape p).writeLeaf? x :=
  toOption_serialize_leaf h x ""

theorem write?_parts (h : (t.shape p).isLeaf = false) (x : Data) :
    t.write? p x = t.writeParts? (t.shape p) x :=
  toOption_serialize_parts h (fun y _ => placeless t y) ""

theorem write?_array {items : Plan} (h : t.shape p = .array items) (xs : List Data) :
    t.write? p (.array xs) = (xs.mapM (t.write? items)).map .list := by
  rw [write?_parts (by rw [h]; rfl), h]
  rfl

theorem write?_object {o : ObjectPlan} (h : t.shape p = .object o) (x : Object) :
    t.write? p (.object x) = (t.writeObject? o x).map .dict := by
  rw [write?_parts (by rw [h]; rfl), h]
  rfl

theorem write?_choices {c : ChoicesPlan} (h : t.shape p = .choices c) (x : Choice) :
    t.write? p (.choice x) = t.writeChoice? c x := by
  rw [write?_parts (by rw [h]; rfl), h]
  rfl

end Table

end Interchange
