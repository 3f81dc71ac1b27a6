import Interchange.Instance.Error
import Interchange.Proofs.Value
import Mathlib.Data.List.Nodup

/-! # Data as trees

Data is `Settled` when each choice in it has content in exactly one slot.
-/

namespace Interchange.Data

open Relation (ReflTransGen)

/-- An item of an array, what a field or a typed extra property of an object holds, or what a slot
of a choice holds. The same for data as `Value.Part` for values. -/
inductive Part : Data → Data → Prop
  | item {x : Data} {xs : List Data} (h : x ∈ xs) : Part x (.array xs)
  | field {o : Object} {k : String} {x : Data} (h : o.get? k = some x) : Part x (.object o)
  | extra {o : Object} {d : Dict Data} {e : String × Data} (h : o.extras = .typed d)
      (he : e ∈ d.entries) : Part e.2 (.object o)
  | slot {c : Choice} {i : Nat} {x : Data} (h : c.get? i = some x) : Part x (.choice c)

theorem Part.sizeOf_lt {y x : Data} (h : Part y x) : sizeOf y < sizeOf x := by
  cases h with
  | item h =>
    have := List.sizeOf_lt_of_mem h
    simp
    omega
  | field h =>
    have := sizeOf_object_get?_lt h
    simp
    omega
  | @extra o d e h he =>
    have := Dict.sizeOf_entry_lt he
    obtain ⟨fields, extras⟩ := o
    cases h
    simp
    omega
  | slot h =>
    have := sizeOf_choice_get?_lt h
    simp
    omega

/-! ## Settled data -/

/-- Every choice in the data, at any depth, has content in exactly one slot. -/
def Settled (x : Data) : Prop := ∀ c, ReflTransGen Part (.choice c) x → ∃ i, c.engaged = [i]

theorem Settled.part {y x : Data} (hx : Settled x) (h : Part y x) : Settled y :=
  fun c hc => hx c (hc.tail h)

theorem settled_of_parts {x : Data} (hc : ∀ c, x = .choice c → ∃ i, c.engaged = [i])
    (h : ∀ y, Part y x → Settled y) : Settled x := by
  intro c hcx
  rcases hcx.cases_tail with rfl | ⟨y, hcy, hyx⟩
  · exact hc c rfl
  · exact h y hyx c hcy

theorem settled_atom {x : Data} (ha : x.array? = none) (ho : x.object? = none)
    (hc : x.choice? = none) : Settled x := by
  refine settled_of_parts ?_ ?_
  · rintro c rfl
    cases hc
  · intro y hy
    cases hy with
    | item => cases ha
    | field | extra => cases ho
    | slot => cases hc

theorem lt_of_engaged {c : Choice} {i : Nat} (hi : engaged (c.get? i) = true) :
    i < c.slots.length := by
  by_contra hn
  rw [ChoiceOf.get?, List.getElem?_eq_none (Nat.le_of_not_lt hn)] at hi
  cases hi

theorem mem_engaged_iff {c : Choice} {i : Nat} : i ∈ c.engaged ↔ engaged (c.get? i) = true := by
  rw [ChoiceOf.engaged, List.mem_filter, List.mem_range]
  exact ⟨And.right, fun hi => ⟨lt_of_engaged hi, hi⟩⟩

/-- A choice with content in the slot `i` and no other. -/
theorem engaged_eq_singleton {c : Choice} {i : Nat} (hi : engaged (c.get? i) = true)
    (h : ∀ j, j ≠ i → engaged (c.get? j) = false) : c.engaged = [i] := by
  have hf : ∀ j ∈ List.range c.slots.length, engaged (c.get? j) = (j == i) := by
    intro j _
    by_cases hj : j = i
    · subst hj
      simpa using hi
    · rw [h j hj, beq_eq_false_iff_ne.mpr hj]
  rw [ChoiceOf.engaged, List.filter_congr hf, List.filter_beq,
    List.count_eq_one_of_mem List.nodup_range (List.mem_range.mpr (lt_of_engaged hi))]
  rfl

theorem engaged_of_engaged_eq {c : Choice} {i : Nat} (h : c.engaged = [i]) :
    engaged (c.get? i) = true :=
  mem_engaged_iff.mp (by simp [h])

end Interchange.Data
