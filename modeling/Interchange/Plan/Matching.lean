import Interchange.Plan.Table

/-! # Which plans suit a value by its kind

A plan of choices suits a value when one of its variants does (`admits_of_choices`), and `pick`
settles on the first. Recursion through variants goes down on `variantHeight` and size.
-/

namespace Interchange

open Plan

/-- Whether a value of the kind suits the shape. Choices leave that to their variants, see `admits`.
-/
def Plan.ShapeOf.takes {α : Type} : ShapeOf α → Value.Kind → Bool
  | .any, _ => true
  | .boolean, k => k == .bool
  | .integer, k => k == .int
  | .int64, k => k == .int || k == .double
  | .double, k => k == .double
  | .string, k | .enumeration _, k | .function true, k => k == .string
  | .binary, k => k == .binary
  | .array _, k => k == .list
  | .object _, k | .function false, k => k == .dict
  | .choices _, _ => false

namespace Table

theorem variantHeight_le_of_mem (t : Table) {c : ChoicesPlan} {v : VariantPlan} (hv : v ∈ c.variants) :
    t.variantHeight v.plan ≤ t.variantHeight (.inline (.choices c)) :=
  above_mono (variantTargets_subset hv)

theorem sizeOf_variant_lt {c : ChoicesPlan} {v : VariantPlan} (hv : v ∈ c.variants) :
    sizeOf v.plan < sizeOf c := by
  have := List.sizeOf_lt_of_mem hv
  cases c; cases v
  simp at *
  omega

/-- The choices that a plan stands for are below it, in the order on heights and sizes. -/
theorem choices_lex (t : Table) {p : Plan} {c : ChoicesPlan} (h : t.shape p = .choices c) :
    Prod.Lex (· < ·) (· < ·) (t.variantHeight (.inline (.choices c)), sizeOf c)
      (t.variantHeight p, sizeOf p) := by
  cases p with
  | inline s =>
    rw [shape] at h
    subst h
    refine .right _ ?_
    simp
    omega
  | named id =>
    rw [shape] at h
    have := t.variantHeight_shape_le (t.plan id)
    rw [h] at this
    exact .left _ _ (Nat.lt_of_le_of_lt this (t.variantHeight_plan_lt id))

/-- A variant is below its choices, in the order on heights and sizes. -/
theorem variant_lex (t : Table) {c : ChoicesPlan} {v : VariantPlan} (hv : v ∈ c.variants) :
    Prod.Lex (· < ·) (· < ·) (t.variantHeight v.plan, sizeOf v.plan)
      (t.variantHeight (.inline (.choices c)), sizeOf c) := by
  rcases Nat.lt_or_eq_of_le (t.variantHeight_le_of_mem hv) with h | h
  · exact .left _ _ h
  · rw [h]
    exact .right _ (sizeOf_variant_lt hv)

theorem lex_trans {a b c : Nat × Nat} (h : Prod.Lex (· < ·) (· < ·) a b)
    (h' : Prod.Lex (· < ·) (· < ·) b c) : Prod.Lex (· < ·) (· < ·) a c := by
  cases h <;> cases h'
  · exact .left _ _ (Nat.lt_trans ‹_› ‹_›)
  · exact .left _ _ ‹_›
  · exact .left _ _ ‹_›
  · exact .right _ (Nat.lt_trans ‹_› ‹_›)

/-- Whether the kind of a value suits a plan: `takes` on its shape, and some variant for choices. -/
def admits (t : Table) (p : Plan) (v : Value) : Bool :=
  match _ : t.shape p with
  | .choices c => c.variants.attach.any fun ⟨w, _⟩ => t.admits w.plan v
  | s => s.takes v.kind
termination_by (t.variantHeight p, sizeOf p)
decreasing_by exact lex_trans (t.variant_lex ‹_›) (t.choices_lex ‹_›)

theorem admits_of_choices {t : Table} {p : Plan} {c : ChoicesPlan} (h : t.shape p = .choices c)
    (v : Value) : t.admits p v = c.variants.any fun w => t.admits w.plan v := by
  rw [admits]
  split
  · rename_i c' h'
    rw [h] at h'
    cases h'
    rw [Bool.eq_iff_iff]
    simp
  · rename_i hs
    exact absurd h (hs c)

/-- The first variant that `admits` a value, and its position counted from `i`. -/
def pick (t : Table) (v : Value) (i : Nat) : List VariantPlan → Option (Nat × VariantPlan)
  | [] => none
  | w :: ws => if t.admits w.plan v then some (i, w) else t.pick v (i + 1) ws

theorem mem_of_pick {t : Table} {v : Value} {ws : List VariantPlan} {i : Nat}
    {r : Nat × VariantPlan} (h : t.pick v i ws = some r) : r.2 ∈ ws := by
  induction ws generalizing i with
  | nil => simp [pick] at h
  | cons w ws ih =>
    simp only [pick] at h
    split at h
    · cases h
      simp
    · exact List.mem_cons_of_mem _ (ih h)

end Table

end Interchange
