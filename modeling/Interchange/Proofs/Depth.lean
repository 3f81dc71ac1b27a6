import Interchange.Proofs.Conformance
import Mathlib.Data.List.MinMax

/-! # How deep values and plans are

A value is a finite tree, while a plan may lead back to itself. Two ways through a table end
nevertheless: the one to what a new instance has to hold (`requiredDepth`), and the one to what a
value may be (`variantDepth`). Reading goes into a value, or else along the second way; so its depth
is bounded by both together (`readingDepth`).
-/

namespace Interchange

open Plan

theorem le_max_attach {α : Type} {l : List α} {x : α} (h : x ∈ l) (f : {x // x ∈ l} → Nat) (n : Nat) :
    f ⟨x, h⟩ ≤ (l.attach.map f).foldr max n :=
  List.le_max_of_le' n (List.mem_map.mpr ⟨⟨x, h⟩, List.mem_attach _ _, rfl⟩) le_rfl

/-! ## Values -/

namespace Value

variable {u v : Value}

/-- The items of a list, or what a dictionary holds, as a list of what `Part` relates. -/
def parts : Value → List Value
  | .list vs => vs
  | .dict d => d.values
  | _ => []

theorem mem_parts_iff : u ∈ v.parts ↔ Part u v := by
  refine ⟨fun h => ?_, fun h => ?_⟩
  · cases v with
    | list vs => exact .item h
    | dict d =>
      obtain ⟨e, he, rfl⟩ := List.mem_map.mp h
      exact .entry he
    | null | bool | int | double | string | binary => cases h
  · cases h with
    | item h => exact h
    | entry h => exact List.mem_map.mpr ⟨_, h, rfl⟩

/-- How deep lists and dictionaries are nested. -/
def height (v : Value) : Nat := (v.parts.attach.map fun ⟨u, _⟩ => u.height + 1).foldr max 0
termination_by sizeOf v
decreasing_by exact Part.sizeOf_lt (mem_parts_iff.mp ‹_›)

theorem Part.height_lt (h : Part u v) : u.height < v.height := by
  rw [height.eq_def v]
  exact le_max_attach (mem_parts_iff.mpr h) (fun x => x.1.height + 1) 0

end Value

/-! ## Plans -/

namespace Plan

variable {p q : Plan}

def ShapeOf.parts {α : Type} : ShapeOf α → List α
  | .array items => [items]
  | .object o => o.properties.map (·.plan) ++ o.additional.toList
  | .choices c => c.variants.map (·.plan)
  | _ => []

/-- The plans that stand directly in a plan, as a list of what `Part` relates. -/
def parts : Plan → List Plan
  | .named _ => []
  | .inline s => s.parts

theorem mem_parts_iff : q ∈ p.parts ↔ Part q p := by
  refine ⟨fun h => ?_, fun h => ?_⟩
  · cases p with
    | named id => cases h
    | inline s =>
      cases s with
      | array items =>
        cases List.mem_singleton.mp h
        exact .item
      | object o =>
        rcases List.mem_append.mp h with h | h
        · obtain ⟨x, hx, rfl⟩ := List.mem_map.mp h
          exact .property hx
        · exact .additional (Option.mem_toList.mp h)
      | choices c =>
        obtain ⟨w, hw, rfl⟩ := List.mem_map.mp h
        exact .variant hw
      | boolean | integer | int64 | double | string | binary | any | function | enumeration => cases h
  · cases h with
    | item => exact List.mem_singleton_self q
    | property h => exact List.mem_append_left _ (List.mem_map.mpr ⟨_, h, rfl⟩)
    | additional h => exact List.mem_append_right _ (Option.mem_toList.mpr h)
    | variant h => exact List.mem_map.mpr ⟨_, h, rfl⟩

theorem Part.sizeOf_lt (h : Part q p) : sizeOf q < sizeOf p := by
  cases h with
  | item =>
    simp
    omega
  | @property o x hx =>
    have := List.sizeOf_lt_of_mem hx
    cases o
    cases x
    simp at this ⊢
    omega
  | @additional o _ ha =>
    cases o
    simp only at ha
    subst ha
    simp
    omega
  | @variant c w hw =>
    have := Table.sizeOf_variant_lt hw
    simp
    omega

/-- The largest value of a function on a plan and all plans in it. -/
def largest (f : Plan → Nat) (p : Plan) : Nat :=
  (p.parts.attach.map fun ⟨q, _⟩ => q.largest f).foldr max (f p)
termination_by sizeOf p
decreasing_by exact Part.sizeOf_lt (mem_parts_iff.mp ‹_›)

theorem le_largest (f : Plan → Nat) (p : Plan) : f p ≤ p.largest f := by
  rw [largest]
  generalize p.parts.attach.map (fun x => x.1.largest f) = ns
  induction ns with
  | nil => exact le_rfl
  | cons n ns ih => exact le_max_of_le_right ih

theorem Part.largest_le (f : Plan → Nat) (h : Part q p) : q.largest f ≤ p.largest f := by
  rw [largest.eq_def f p]
  exact le_max_attach (mem_parts_iff.mpr h) (fun x => x.1.largest f) (f p)

end Plan

namespace Table

variable {t : Table} {p q : Plan} {v u : Value}

/-- How deep required properties are nested in what a plan stands for. -/
def requiredDepth (t : Table) (p : Plan) : Nat :=
  match _ : t.shape p with
  | .object o => (o.properties.attach.map fun ⟨q, _⟩ =>
      if _ : q.optional = false then t.requiredDepth q.plan + 1 else 0).foldr max 0
  | _ => 0
termination_by (t.requiredHeight p, sizeOf p)
decreasing_by exact lex_trans (properties_lex_of_mem t ‹_› ‹_›) (t.properties_lex ‹_›)

theorem requiredDepth_lt {o : ObjectPlan} (h : t.shape p = .object o) {q : PropertyPlan}
    (hq : q ∈ o.properties) (ho : q.optional = false) : t.requiredDepth q.plan < t.requiredDepth p := by
  rw [requiredDepth.eq_def t p]
  split <;> rename_i hs
  · rw [h] at hs
    cases hs
    have hle := le_max_attach hq
      (fun x => if x.1.optional = false then t.requiredDepth x.1.plan + 1 else 0) 0
    rw [if_pos ho] at hle
    exact hle
  · exact absurd h (hs o)

/-- How deep choices are nested as variants in what a plan stands for. -/
def variantDepth (t : Table) (p : Plan) : Nat :=
  match _ : t.shape p with
  | .choices c => (c.variants.attach.map fun ⟨w, _⟩ => t.variantDepth w.plan + 1).foldr max 0
  | _ => 0
termination_by (t.variantHeight p, sizeOf p)
decreasing_by exact lex_trans (t.variant_lex ‹_›) (t.choices_lex ‹_›)

theorem variantDepth_lt {c : ChoicesPlan} (h : t.shape p = .choices c) {w : VariantPlan}
    (hw : w ∈ c.variants) : t.variantDepth w.plan < t.variantDepth p := by
  rw [variantDepth.eq_def t p]
  split <;> rename_i hs
  · rw [h] at hs
    cases hs
    exact le_max_attach hw (fun x => t.variantDepth x.1.plan + 1) 0
  · exact absurd h (hs c)

/-- The `largest` depth of choices in a plan and in the entries of a table. -/
def variantBound (t : Table) (p : Plan) : Nat :=
  max ((t.entries.map fun e => e.plan.largest t.variantDepth).foldr max 0) (p.largest t.variantDepth)

theorem variantDepth_le_bound (t : Table) (p : Plan) : t.variantDepth p ≤ t.variantBound p :=
  le_max_of_le_right (le_largest _ p)

theorem Part.variantBound_le (h : t.Part q p) : t.variantBound q ≤ t.variantBound p := by
  refine max_le (le_max_left _ _) (le_trans (Plan.Part.largest_le _ h) ?_)
  -- what a plan stands for is the plan itself, or an entry
  refine shape_of_closed (S := fun s => s.largest t.variantDepth ≤ t.variantBound p) ?_ ?_
    (le_max_right _ _)
  · have hany : t.variantDepth (.inline .any) = 0 := by
      rw [variantDepth]
      split <;> rename_i hs
      · rw [shape] at hs
        cases hs
      · rfl
    rw [largest]
    exact hany ▸ Nat.zero_le _
  · exact fun e he => le_max_of_le_left (List.le_max_of_le' 0 (List.mem_map.mpr ⟨e, he, rfl⟩) le_rfl)

/-- The depth of reading: each level of the value may be read through as many choices as there are,
one in another. -/
def readingDepth (t : Table) (p : Plan) (v : Value) : Nat :=
  v.height * (t.variantBound p + 1) + t.variantDepth p

/-- Reading a part of a value is less deep, whatever part of the plan it is read by: `height` goes
down. -/
theorem readingDepth_lt_of_part (hq : t.Part q p) (hu : Value.Part u v) :
    t.readingDepth q u < t.readingDepth p v := by
  have hd := t.variantDepth_le_bound q
  have hb := hq.variantBound_le
  calc u.height * (t.variantBound q + 1) + t.variantDepth q
      ≤ u.height * (t.variantBound p + 1) + t.variantBound p :=
        Nat.add_le_add (Nat.mul_le_mul_left _ (Nat.succ_le_succ hb)) (le_trans hd hb)
    _ < (u.height + 1) * (t.variantBound p + 1) := by
        rw [Nat.succ_mul]
        omega
    _ ≤ v.height * (t.variantBound p + 1) := Nat.mul_le_mul_right _ hu.height_lt
    _ ≤ t.readingDepth p v := Nat.le_add_right _ _

/-- Reading the same value by a variant is less deep: `variantDepth` goes down. -/
theorem readingDepth_lt_of_variant {c : ChoicesPlan} (h : t.shape p = .choices c) {w : VariantPlan}
    (hw : w ∈ c.variants) (v : Value) : t.readingDepth w.plan v < t.readingDepth p v := by
  have hd := variantDepth_lt h hw
  have hb := (part_variant h hw).variantBound_le
  calc v.height * (t.variantBound w.plan + 1) + t.variantDepth w.plan
      ≤ v.height * (t.variantBound p + 1) + t.variantDepth w.plan :=
        Nat.add_le_add_right (Nat.mul_le_mul_left _ (Nat.succ_le_succ hb)) _
    _ < t.readingDepth p v := Nat.add_lt_add_left hd _

end Table

end Interchange
