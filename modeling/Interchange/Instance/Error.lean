import Interchange.Instance.Basic

/-! # Instances that do not have the shape of their plan

An `InstanceError` names the place in the instance; `itemPlace`, `fieldPlace` and `variantPlace` say
how places are written.
-/

namespace Interchange

inductive InstanceError
  | mismatch (place expected found : String)
  /-- A choice that has not settled on exactly one variant. -/
  | unsettled (plan place : String) (engaged : Nat)
  deriving Repr, DecidableEq

namespace InstanceError

def message : InstanceError → String
  | .mismatch place expected found =>
    "'" ++ place ++ "': expected " ++ expected ++ " data, found " ++ found
  | .unsettled plan place engaged =>
    "choices '" ++ plan ++ "' at '" ++ place ++ "' must have exactly one variant set, found " ++
      toString engaged

/-- Typed extra properties where the plan knows none. -/
def notClosed (place : String) : InstanceError := .mismatch place "closed object" "additional properties"

end InstanceError

/-! ## Places inside instances -/

def itemPlace (place : String) (i : Nat) : String := place ++ "[" ++ toString i ++ "]"

def fieldPlace (place name : String) : String := place ++ "." ++ name

def variantPlace (place label : String) : String := place ++ "<" ++ label ++ ">"

/-! ## Parts are smaller than the whole -/

namespace Data

theorem sizeOf_object_get?_lt {o : Object} {name : String} {d : Data} (h : o.get? name = some d) :
    sizeOf d < sizeOf o := by
  have hf := o.fields.sizeOf_get?_lt name
  obtain ⟨fields, extras⟩ := o
  cases hg : fields.get? name with
  | none => simp [ObjectOf.get?, hg] at h
  | some slot =>
    simp only [ObjectOf.get?, hg, Option.join_some] at h
    subst h
    simp only [hg] at hf
    simp at hf ⊢
    omega

theorem sizeOf_choice_get?_lt {c : Choice} {i : Nat} {d : Data} (h : c.get? i = some d) :
    sizeOf d < sizeOf c := by
  obtain ⟨slots⟩ := c
  cases hg : slots[i]? with
  | none => simp [ChoiceOf.get?, hg] at h
  | some slot =>
    simp only [ChoiceOf.get?, hg, Option.join_some] at h
    subst h
    have := List.sizeOf_lt_of_mem (List.mem_of_getElem? hg)
    simp at this ⊢
    omega

end Data

end Interchange
