import Interchange.Plan.Basic

/-! # The entries that a plan names directly

Those it must hold through required properties (`requiredTargets`), and those it may be through
variants (`variantTargets`). They are the edges of the two graphs that a `Table` keeps free of
cycles, and `above` turns ranks of entries into ranks of plans.
-/

namespace Interchange.Plan

mutual

/-- The entries that an instance of the plan holds through required properties. -/
def requiredTargets : Plan → List Nat
  | .named id => [id]
  | .inline s => shapeRequired s

def shapeRequired : ShapeOf Plan → List Nat
  | .object ⟨_, properties, _⟩ => propertiesRequired properties
  | _ => []

def propertiesRequired : List (PropertyOf Plan) → List Nat
  | [] => []
  | ⟨_, optional, plan⟩ :: ps =>
    (if optional then [] else requiredTargets plan) ++ propertiesRequired ps

end

mutual

/-- The entries that a value of the plan may be. -/
def variantTargets : Plan → List Nat
  | .named id => [id]
  | .inline s => shapeVariants s

def shapeVariants : ShapeOf Plan → List Nat
  | .choices ⟨_, variants⟩ => variantsTargets variants
  | _ => []

def variantsTargets : List (VariantOf Plan) → List Nat
  | [] => []
  | ⟨_, plan⟩ :: vs => variantTargets plan ++ variantsTargets vs

end

theorem requiredTargets_subset {ps : List PropertyPlan} {p : PropertyPlan} (hp : p ∈ ps)
    (hr : p.optional = false) : ∀ id ∈ p.plan.requiredTargets, id ∈ propertiesRequired ps := by
  induction ps with
  | nil => simp at hp
  | cons q ps ih =>
    intro id hid
    obtain ⟨name, optional, plan⟩ := q
    simp only [propertiesRequired, List.mem_append]
    rcases List.mem_cons.1 hp with rfl | hp
    · left
      simp only at hr hid
      simpa [hr] using hid
    · exact .inr (ih hp id hid)

theorem variantTargets_subset {vs : List VariantPlan} {v : VariantPlan} (hv : v ∈ vs) :
    ∀ id ∈ v.plan.variantTargets, id ∈ variantsTargets vs := by
  induction vs with
  | nil => simp at hv
  | cons w vs ih =>
    intro id hid
    obtain ⟨label, plan⟩ := w
    simp only [variantsTargets, List.mem_append]
    rcases List.mem_cons.1 hv with rfl | hv
    · exact .inl hid
    · exact .inr (ih hv id hid)

/-! ## Ranks of plans -/

/-- The least bound above the ranks of all targets; `above_le_iff` characterises it. -/
def above (rank : Nat → Nat) : List Nat → Nat
  | [] => 0
  | id :: ids => max (rank id + 1) (above rank ids)

theorem above_le_iff {rank : Nat → Nat} {ids : List Nat} {n : Nat} :
    above rank ids ≤ n ↔ ∀ id ∈ ids, rank id < n := by
  induction ids with
  | nil => simp [above]
  | cons id ids ih => simp only [above, Nat.max_le, ih, Nat.succ_le_iff, List.forall_mem_cons]

theorem rank_lt_above {rank : Nat → Nat} {ids : List Nat} {id : Nat} (h : id ∈ ids) :
    rank id < above rank ids :=
  above_le_iff.1 (Nat.le_refl _) id h

theorem above_mono {rank : Nat → Nat} {ids ids' : List Nat} (h : ∀ id ∈ ids, id ∈ ids') :
    above rank ids ≤ above rank ids' :=
  above_le_iff.2 fun id hid => rank_lt_above (h id hid)

end Interchange.Plan
