import Interchange.Plan.Cycle
import Interchange.Plan.Target
import Interchange.GenerateError
import Interchange.Value.Basic

/-! # Tables of plans

In a `Table` no type contains itself through required properties, and none is its own variant; so
every type has a default, and every search for a variant comes to an end. `ofEntries` establishes
both by a search for cycles. What recursion goes down on are `requiredHeight` and `variantHeight`.
-/

namespace Interchange

open Plan

structure Entry where
  /-- What diagnostics show. -/
  name : String
  plan : Plan
  deriving Repr

/-- The plan of an entry, and `any` where there is none. -/
def planAt (entries : List Entry) (id : Nat) : Plan :=
  match entries[id]? with
  | some e => e.plan
  | none => default

def requiredEdges (entries : List Entry) (id : Nat) : List Nat := (planAt entries id).requiredTargets

def variantEdges (entries : List Entry) (id : Nat) : List Nat := (planAt entries id).variantTargets

structure Table where
  entries : List Entry
  required : Graph.Ranked (requiredEdges entries)
  variant : Graph.Ranked (variantEdges entries)

theorem planAt_of_le {entries : List Entry} {id : Nat} (h : entries.length ≤ id) :
    planAt entries id = .inline .any := by
  simp [planAt, List.getElem?_eq_none h]
  rfl

namespace Table

def nameAt (entries : List Entry) (id : Nat) : String :=
  match entries[id]? with
  | some e => e.name
  | none => ""

/-- Looks for a type that contains itself through required properties: a cycle of `requiredEdges`.
-/
def checkRequired (entries : List Entry) : Except GenerateError Unit :=
  match Graph.findCycle (requiredEdges entries) entries.length with
  | some cycle => .error (.recursiveRequired (cycle.map (nameAt entries)))
  | none => .ok ()

/-- Looks for a type that is one of its own variants: a cycle of `variantEdges`. -/
def checkVariants (entries : List Entry) : Except GenerateError Unit :=
  match Graph.findCycle (variantEdges entries) entries.length with
  | some cycle => .error (.recursiveChoices (cycle.map (nameAt entries)))
  | none => .ok ()

theorem ranked_of_checkRequired {entries : List Entry} (h : checkRequired entries = .ok ()) :
    Graph.Ranked (requiredEdges entries) := by
  unfold checkRequired at h
  split at h
  · cases h
  · refine Graph.ranked_of_findCycle (fun id hid => ?_) ‹_›
    simp [requiredEdges, planAt_of_le hid, requiredTargets, shapeRequired]

theorem ranked_of_checkVariants {entries : List Entry} (h : checkVariants entries = .ok ()) :
    Graph.Ranked (variantEdges entries) := by
  unfold checkVariants at h
  split at h
  · cases h
  · refine Graph.ranked_of_findCycle (fun id hid => ?_) ‹_›
    simp [variantEdges, planAt_of_le hid, variantTargets, shapeVariants]

/-- Makes a table of entries that pass `checkRequired` and `checkVariants`. -/
def ofEntries (entries : List Entry) : Except GenerateError Table :=
  match hr : checkRequired entries with
  | .error e => .error e
  | .ok () =>
    match hv : checkVariants entries with
    | .error e => .error e
    | .ok () => .ok ⟨entries, ranked_of_checkRequired hr, ranked_of_checkVariants hv⟩

def size (t : Table) : Nat := t.entries.length

def plan (t : Table) (id : Nat) : Plan := planAt t.entries id

/-! ## Ranks -/

noncomputable def requiredRank (t : Table) : Nat → Nat := Classical.choose t.required

noncomputable def variantRank (t : Table) : Nat → Nat := Classical.choose t.variant

/-- A bound on the ranks of the entries that a plan holds, its `requiredTargets`. -/
noncomputable def requiredHeight (t : Table) (p : Plan) : Nat := above t.requiredRank p.requiredTargets

/-- A bound on the ranks of the entries that a plan may be, its `variantTargets`. -/
noncomputable def variantHeight (t : Table) (p : Plan) : Nat := above t.variantRank p.variantTargets

theorem requiredHeight_plan_lt (t : Table) (id : Nat) :
    t.requiredHeight (t.plan id) < t.requiredHeight (.named id) := by
  have h : t.requiredHeight (t.plan id) ≤ t.requiredRank id :=
    above_le_iff.2 (Classical.choose_spec t.required id)
  exact Nat.lt_of_le_of_lt h (rank_lt_above (by simp [requiredTargets]))

theorem variantHeight_plan_lt (t : Table) (id : Nat) :
    t.variantHeight (t.plan id) < t.variantHeight (.named id) := by
  have h : t.variantHeight (t.plan id) ≤ t.variantRank id :=
    above_le_iff.2 (Classical.choose_spec t.variant id)
  exact Nat.lt_of_le_of_lt h (rank_lt_above (by simp [variantTargets]))

/-! ## Concrete plans -/

/-- Follows a plan to one that is written out. -/
def shape (t : Table) : Plan → Shape
  | .inline s => s
  | .named id => t.shape (t.plan id)
termination_by p => t.requiredHeight p
decreasing_by exact t.requiredHeight_plan_lt id

/-- The last entry on the way to the `shape` that is written out. -/
def target? (t : Table) : Plan → Option Nat
  | .inline _ => none
  | .named id => some ((t.target? (t.plan id)).getD id)
termination_by p => t.requiredHeight p
decreasing_by exact t.requiredHeight_plan_lt id

theorem requiredHeight_shape_le (t : Table) (p : Plan) :
    t.requiredHeight (.inline (t.shape p)) ≤ t.requiredHeight p := by
  fun_induction shape t p with
  | case1 => exact Nat.le_refl _
  | case2 id ih => exact Nat.le_trans ih (Nat.le_of_lt (t.requiredHeight_plan_lt id))

theorem variantHeight_shape_le (t : Table) (p : Plan) :
    t.variantHeight (.inline (t.shape p)) ≤ t.variantHeight p := by
  fun_induction shape t p with
  | case1 => exact Nat.le_refl _
  | case2 id ih => exact Nat.le_trans ih (Nat.le_of_lt (t.variantHeight_plan_lt id))

/-- The members of an enumeration plan. -/
def enum? (t : Table) (p : Plan) : Option EnumPlan :=
  match t.shape p with
  | .enumeration e => some e
  | _ => none

def isEnum (t : Table) (p : Plan) : Bool := (t.enum? p).isSome

/-- The name of the plan's kind in errors about instances, that of its `shape`. -/
def kindName (t : Table) (p : Plan) : String := (t.shape p).kindName

end Table

namespace Plan

/-- What a value of the shape is called in diagnostics, the word in `Fault.mismatch`. -/
def ShapeOf.expectedName {α : Type} : ShapeOf α → String
  | .boolean => "boolean"
  | .integer | .int64 => "integer"
  | .double => "double"
  | .string | .enumeration _ | .function true => "string"
  | .binary => "binary"
  | .any => "any"
  | .function false | .object _ => "dictionary"
  | .array _ => "list"
  | .choices _ => "choices"

/-- The kind of value that a manifest must hold, for the shapes that are read from it directly. -/
def ShapeOf.manifestKind? {α : Type} : ShapeOf α → Option Value.Kind
  | .boolean => some .bool
  | .integer | .int64 => some .int
  | .double => some .double
  | .string | .enumeration _ => some .string
  | .array _ => some .list
  | .object _ => some .dict
  | _ => none

end Plan

end Interchange
