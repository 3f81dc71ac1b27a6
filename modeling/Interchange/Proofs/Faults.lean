import Interchange.Proofs.Reading

/-! # Which fault ends reading

`read?` says what data a value yields and leaves the fault aside. `fault?` does the opposite, and
has one equation for each shape, too. The fault of a list is that of the first item that has one
(`firstFault`). The fault of an object is that of the first property that has one (`slotFault?`),
and where there is none, that of the first typed extra property (`extrasFault?`).
-/

namespace Interchange

open Plan Populate

variable {α β σ : Type}

/-! ## Results without their data -/

/-- The fault that a result is, if it is one. -/
def faultOf : Except Fault α → Option Fault
  | .ok _ => none
  | .error f => some f

@[simp] theorem faultOf_ok (a : α) : faultOf (.ok a) = none := rfl

@[simp] theorem faultOf_error (f : Fault) : faultOf (.error f : Except Fault α) = some f := rfl

@[simp] theorem faultOf_map (x : Except Fault α) (f : α → β) : faultOf (x.map f) = faultOf x := by
  cases x <;> rfl

@[simp] theorem faultOf_toExcept (r : Outcome σ) : faultOf r.toExcept = r.2 := by
  obtain ⟨s, f⟩ := r
  cases f <;> rfl

theorem Outcome.snd_andThen (r : Outcome σ) (next : σ → Outcome σ) :
    (r.andThen next).2 = r.2.or (next r.1).2 := by
  obtain ⟨s, f⟩ := r
  cases f <;> rfl

/-! ## Shapes without parts -/

/-- The fault of a value that a shape without parts refuses. -/
def Plan.ShapeOf.refusal : ShapeOf α → Option String → Value → Fault
  | .enumeration e, key, .string s => .unknownMember key e s
  | .function false, key, v => .mismatch key "empty dictionary" v.kind
  | s, key, v => .mismatch key s.expectedName v.kind

theorem faultOf_orMismatch (key : Option String) (expected : String) (v : Value) (o : Option α) :
    faultOf (orMismatch key expected v o) =
      if o.isSome then none else some (.mismatch key expected v.kind) := by
  cases o <;> rfl

theorem faultOf_enumValue (e : EnumPlan) (key : Option String) (v : Value) :
    faultOf (enumValue e key v) =
      if (e.member? v).isSome then none else some ((.enumeration e : ShapeOf α).refusal key v) := by
  cases v with
  | string s =>
    simp only [enumValue, EnumPlan.member?, Value.string?, Option.bind_some]
    split <;> rfl
  | null | bool | int | double | binary | list | dict => rfl

namespace Table

variable {t : Table} {p : Plan} {key : Option String} {v : Value}

/-- The fault that ends the reading of a value by `convert`. -/
def fault? (t : Table) (p : Plan) (key : Option String) (v : Value) : Option Fault :=
  faultOf (t.convert p key v)

theorem fault?_enumeration {e : EnumPlan} (h : t.shape p = .enumeration e) (key : Option String)
    (v : Value) : t.fault? p key v = faultOf (enumValue e key v) := by
  rw [fault?, convert]
  split <;> rename_i hs <;> rw [h] at hs <;> cases hs
  exact faultOf_map _ _

theorem fault?_leaf (h : (t.shape p).isLeaf = true) (key : Option String) (v : Value) :
    t.fault? p key v =
      if ((t.shape p).readLeaf? v).isSome then none else some ((t.shape p).refusal key v) := by
  cases hs : t.shape p with
  | enumeration e => rw [fault?_enumeration hs, faultOf_enumValue, ShapeOf.readLeaf?, Option.isSome_map]
  | array | object | choices =>
    rw [hs] at h
    cases h
  | boolean | integer | int64 | double | string | binary | any | function =>
    rw [fault?, convert]
    split <;> rename_i hs' <;> rw [hs] at hs' <;> cases hs' <;>
      simp only [ShapeOf.readLeaf?, ShapeOf.refusal, ShapeOf.expectedName, faultOf_map, faultOf_ok,
        faultOf_orMismatch, Option.isSome_map, Option.isSome_some, if_true]

/-! ## Lists -/

/-- The first fault of a list, told with its position. -/
def firstFault (tell : Nat → Fault → Fault) (i : Nat) : List (Option Fault) → Option Fault
  | [] => none
  | none :: faults => firstFault tell (i + 1) faults
  | some f :: _ => some (tell i f)

/-- How the fault of an item is told: members of enumerations keep a fault of their own,
`Fault.member`. -/
def tellItem (t : Table) (items : Plan) (key : Option String) : Nat → Fault → Fault :=
  if t.isEnum items then .member key else .element key

/-- The fault of a value that is read as a list, the `firstFault` of its items. -/
def arrayFault? (t : Table) (items : Plan) (key : Option String) : Value → Option Fault
  | .list vs => firstFault (t.tellItem items key) 0 (vs.map (t.fault? items none))
  | v => some (.mismatch key "list" v.kind)

theorem snd_enumItems (e : EnumPlan) (key : Option String) (i : Nat) (vs : List Value) :
    (enumItems e key i vs).2 =
      firstFault (.member key) i (vs.map fun v => faultOf (enumValue e none v)) := by
  induction vs generalizing i with
  | nil => rfl
  | cons v vs ih =>
    rw [enumItems, List.map_cons]
    cases enumValue e none v with
    | error f => rfl
    | ok m => exact ih (i + 1)

theorem faultOf_convertItems (items : Plan) (key : Option String) (i : Nat) (vs : List Value) :
    faultOf (t.convertItems items key i vs) =
      firstFault (.element key) i (vs.map (t.fault? items none)) := by
  induction vs generalizing i with
  | nil =>
    rw [convertItems]
    rfl
  | cons v vs ih =>
    rw [convertItems, List.map_cons, fault?]
    cases t.convert items none v with
    | error f => rfl
    | ok x =>
      simp only [faultOf_map]
      exact ih (i + 1)

theorem snd_enumList {items : Plan} {e : EnumPlan} (h : t.shape items = .enumeration e)
    (key : Option String) (v : Value) : (enumList e key v).2 = t.arrayFault? items key v := by
  cases v with
  | list vs =>
    have htell : t.tellItem items key = .member key := if_pos (isEnum_iff.mpr ⟨e, h⟩)
    rw [arrayFault?, htell, enumList, snd_enumItems]
    simp only [← fault?_enumeration h]
  | null | bool | int | double | string | binary | dict => rfl

theorem fault?_array {items : Plan} (h : t.shape p = .array items) (key : Option String) (v : Value) :
    t.fault? p key v = t.arrayFault? items key v := by
  rw [fault?, convert]
  split <;> rename_i hs <;> rw [h] at hs <;> cases hs
  split
  · rename_i e he
    rw [faultOf_map, faultOf_toExcept, snd_enumList (shape_of_enum? he)]
  · rename_i he
    have htell : t.tellItem items key = .element key := if_neg (by simp [isEnum, he])
    split
    · rw [faultOf_map, faultOf_convertItems, arrayFault?, htell]
    · rename_i hv
      cases v with
      | list vs => exact absurd rfl (hv vs)
      | null | bool | int | double | string | binary | dict => rfl

/-! ## Objects -/

/-- The fault of a property; there may be no value for it. What `populateProperty` ends with. -/
def slotFault? (t : Table) (q : PropertyPlan) : Option Value → Option Fault
  | none => if q.optional then none else some (.missing q.name)
  | some v => if t.ignores q then none else t.fault? q.plan (some q.name) v

/-- The fault of typed extra properties, told under their keys; untyped ones have none. -/
def extrasFault? (t : Table) (o : ObjectPlan) (d : Dict Value) : Option Fault :=
  match o.additional with
  | none => none
  | some a =>
    match t.shape a with
    | .any => none
    | _ => d.entries.findSome? fun e => t.fault? a (some e.1) e.2

/-- The fault of a value that is read as an object. -/
def objectFault? (t : Table) (o : ObjectPlan) (key : Option String) : Value → Option Fault
  | .dict d => ((sources o d).findSome? fun r => t.slotFault? r.1 r.2).or (t.extrasFault? o d)
  | v => some (.mismatch key "dictionary" v.kind)

/-- A list of enumeration members that `direct?` reads has the fault of any list. -/
theorem snd_direct? {q : PropertyPlan} {out : Object} {r : Outcome Object} (hi : t.ignores q = false)
    (h : direct? t q v out = some r) : r.2 = t.fault? q.plan (some q.name) v := by
  unfold direct? at h
  split at h
  · rename_i items hs
    obtain ⟨e, he, rfl⟩ := Option.map_eq_some_iff.mp h
    rw [fault?_array hs]
    exact snd_enumList (shape_of_enum? he) _ v
  · rename_i hs
    simp only [ignores, hs, ShapeOf.isFunction, Bool.and_true] at hi
    simp [hi] at h
  · cases h

/-- The instance that is read into has no part in the fault: `out` does not occur in `slotFault?`.
-/
theorem snd_populateProperty (q : PropertyPlan) (u : Option Value) (out : Object) :
    (t.populateProperty q u out).2 = t.slotFault? q u := by
  cases u with
  | none =>
    rw [populateProperty, slotFault?]
    split <;> rfl
  | some v =>
    rw [populateProperty, slotFault?]
    cases hi : t.ignores q with
    | true =>
      simp only [direct?_of_ignores hi v out, if_true]
      rfl
    | false =>
      simp only [Bool.false_eq_true, if_false]
      cases hr : direct? t q v out with
      | some r => exact snd_direct? hi hr
      | none =>
        rw [fault?]
        simp only
        cases t.convert q.plan (some q.name) v <;> rfl

theorem snd_populateEach (qs : List (PropertyPlan × Option Value)) (out : Object) :
    (t.populateEach qs out).2 = qs.findSome? fun r => t.slotFault? r.1 r.2 := by
  induction qs generalizing out with
  | nil => rfl
  | cons r qs ih =>
    obtain ⟨q, u⟩ := r
    rw [populateEach, Outcome.snd_andThen, ih, snd_populateProperty, List.findSome?_cons]
    cases t.slotFault? q u <;> rfl

theorem snd_populateExtras (a : Plan) (es : List (String × Value)) (out : Object) :
    (t.populateExtras a es out).2 = es.findSome? fun e => t.fault? a (some e.1) e.2 := by
  induction es generalizing out with
  | nil =>
    rw [populateExtras]
    rfl
  | cons e es ih =>
    obtain ⟨k, v⟩ := e
    rw [populateExtras, List.findSome?_cons, fault?]
    cases t.convert a (some k) v with
    | error f => rfl
    | ok x => exact ih _

theorem snd_populateObject (o : ObjectPlan) (d : Dict Value) (out : Object) :
    (t.populateObject o d out).2 = t.objectFault? o none (.dict d) := by
  rw [populateObject, Outcome.snd_andThen, populateProperties_eq, snd_populateEach, objectFault?, sources,
    extrasFault?]
  congr 1
  cases o.additional with
  | none => rfl
  | some a =>
    simp only
    cases t.shape a with
    | any => rfl
    | boolean | integer | int64 | double | string | binary | function | enumeration | array | object
    | choices => exact snd_populateExtras a d.entries _

theorem fault?_object {o : ObjectPlan} (h : t.shape p = .object o) (key : Option String) (v : Value) :
    t.fault? p key v = t.objectFault? o key v := by
  rw [fault?, convert]
  split <;> rename_i hs <;> rw [h] at hs <;> cases hs
  split
  · rw [faultOf_map, faultOf_toExcept]
    exact snd_populateObject o _ _
  · rename_i hv
    cases v with
    | dict d => exact absurd rfl (hv d)
    | null | bool | int | double | string | binary | list => rfl

/-! ## Choices -/

/-- The fault of a value that is read as a choice. -/
def choiceFault? (t : Table) (c : ChoicesPlan) (key : Option String) (v : Value) : Option Fault :=
  match t.pick v 0 c.variants with
  | none => some (.noVariant key (c.variants.map (·.label)) v.kind)
  | some (_, u) => t.fault? u.plan (some u.label) v

theorem faultOf_convertChoice (c : ChoicesPlan) (key : Option String) (v : Value) :
    faultOf (t.convertChoice c key v) = t.choiceFault? c key v := by
  rw [convertChoice, choiceFault?]
  split <;> rename_i hp <;> simp only [hp, faultOf_map, faultOf_error, fault?]

theorem fault?_choices {c : ChoicesPlan} (h : t.shape p = .choices c) (key : Option String) (v : Value) :
    t.fault? p key v = t.choiceFault? c key v := by
  rw [fault?, convert]
  split <;> rename_i hs <;> rw [h] at hs <;> cases hs
  rw [faultOf_map, faultOf_convertChoice]

end Table

end Interchange
