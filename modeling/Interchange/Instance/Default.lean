import Interchange.Instance.Basic
import Interchange.Plan.Table

/-! # New instances

`defaultData` is what a new instance holds. An enumeration starts without a member, whether it is
required or not. Other optional fields start absent, required ones with the zero of their kind; that
recursion ends because a `Table` has no type that contains itself through required properties.
-/

namespace Interchange.Table

open Plan

/-- A pair that does not grow in its first part and shrinks in its second. -/
theorem lex_of_le_of_lt {a a' b b' : Nat} (h : a ≤ a') (h' : b < b') :
    Prod.Lex (· < ·) (· < ·) (a, b) (a', b') := by
  rcases Nat.lt_or_eq_of_le h with h | h
  · exact .left _ _ h
  · rw [h]
    exact .right _ h'

/-- A bound on the ranks of the entries that properties hold, as `requiredHeight` is for a plan. -/
noncomputable def propertiesHeight (t : Table) (ps : List PropertyPlan) : Nat :=
  above t.requiredRank (propertiesRequired ps)

theorem properties_lex (t : Table) {p : Plan} {o : ObjectPlan} (h : t.shape p = .object o) :
    Prod.Lex (· < ·) (· < ·) (t.propertiesHeight o.properties, sizeOf o.properties)
      (t.requiredHeight p, sizeOf p) := by
  obtain ⟨name, properties, additional⟩ := o
  cases p with
  | inline s =>
    rw [shape] at h
    subst h
    refine .right _ ?_
    simp
    omega
  | named id =>
    rw [shape] at h
    have := t.requiredHeight_shape_le (t.plan id)
    rw [h] at this
    exact .left _ _ (Nat.lt_of_le_of_lt this (t.requiredHeight_plan_lt id))

theorem property_lex (t : Table) {p : PropertyPlan} (hp : p.optional = false) (ps : List PropertyPlan) :
    Prod.Lex (· < ·) (· < ·) (t.requiredHeight p.plan, sizeOf p.plan)
      (t.propertiesHeight (p :: ps), sizeOf (p :: ps)) := by
  refine lex_of_le_of_lt (above_mono (requiredTargets_subset (by simp) hp)) ?_
  cases p
  simp
  omega

theorem tail_lex (t : Table) (p : PropertyPlan) (ps : List PropertyPlan) :
    Prod.Lex (· < ·) (· < ·) (t.propertiesHeight ps, sizeOf ps)
      (t.propertiesHeight (p :: ps), sizeOf (p :: ps)) := by
  refine lex_of_le_of_lt (above_mono fun id hid => ?_) (by simp only [List.cons.sizeOf_spec]; omega)
  cases p
  simp only [propertiesRequired, List.mem_append]
  exact .inr hid

/-- The extras of a new object. -/
def newExtras (t : Table) (o : ObjectPlan) : Extras :=
  match o.additional with
  | none => .closed
  | some p =>
    match t.shape p with
    | .any => .any ∅
    | _ => .typed ∅

/-- The slot of something absent, which an enumeration fills with `EnumValue.none`. -/
def absentSlot (t : Table) (p : Plan) : Option Data :=
  if t.isEnum p then some (.enumeration .none) else none

/-- A new choice has no content. -/
def newChoice (t : Table) (c : ChoicesPlan) : Choice :=
  ⟨c.variants.map fun v => t.absentSlot v.plan⟩

mutual

/-- The data that a new instance holds. -/
def defaultData (t : Table) (p : Plan) : Data :=
  match _ : t.shape p with
  | .boolean => .boolean false
  | .integer => .integer 0
  | .int64 => .int64 0
  | .double => .double .zero
  | .string | .function true => .string ""
  | .binary => .binary []
  | .any => .any .null
  | .function false => .function (.dict ∅)
  | .enumeration _ => .enumeration .none
  | .array _ => .array []
  | .object o => .object ⟨.ofList (t.defaultFields o.properties), t.newExtras o⟩
  | .choices c => .choice (t.newChoice c)
termination_by (t.requiredHeight p, sizeOf p)
decreasing_by exact t.properties_lex ‹_›

def defaultFields (t : Table) (ps : List PropertyPlan) : List (String × Option Data) :=
  match ps with
  | [] => []
  | p :: ps =>
    let slot :=
      if t.isEnum p.plan then some (.enumeration .none)
      else if p.optional then none
      else some (t.defaultData p.plan)
    (p.name, slot) :: t.defaultFields ps
termination_by (t.propertiesHeight ps, sizeOf ps)
decreasing_by
  · exact t.property_lex (by simpa using ‹¬p.optional = true›) ps
  · exact t.tail_lex p ps

end

def newObject (t : Table) (o : ObjectPlan) : Object :=
  ⟨.ofList (t.defaultFields o.properties), t.newExtras o⟩

end Interchange.Table
