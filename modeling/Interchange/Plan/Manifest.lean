import Interchange.Operation
import Interchange.Plan.Table

/-! # The types that a manifest holds

Everything reached from the root of a manifest through properties of objects, in the order of
`Table.walk`. Arrays and variants are not entered. Objects and choices that are reached must be able
to parse manifests, which `manifestMarks` records; some kinds cannot be read from one at all.
-/

namespace Interchange

open Plan

/-- A property together with the name of its object. -/
structure OwnedProperty where
  owner : String
  property : PropertyPlan

def Plan.ObjectOf.owned (o : ObjectPlan) : List OwnedProperty :=
  o.properties.map fun p => ⟨o.name, p⟩

namespace Table

/-- Operations that entries have to offer, by the number of the entry. -/
abbrev Marks := List (Nat × Operations)

/-- The entries not visited yet, whose number goes down when `walk` enters an object. -/
def unvisited (t : Table) (visited : List Nat) : Nat := (List.range t.size).countP (· ∉ visited)

noncomputable def weight : List OwnedProperty → Nat
  | [] => 0
  | p :: ps => sizeOf p.property + weight ps

theorem weight_append (ps qs : List OwnedProperty) : weight (ps ++ qs) = weight ps + weight qs := by
  induction ps with
  | nil => simp [weight]
  | cons p ps ih =>
    rw [List.cons_append, weight, weight, ih]
    omega

theorem weight_lt_cons (p : OwnedProperty) (ps : List OwnedProperty) :
    weight ps < weight (p :: ps) := by
  obtain ⟨owner, name, optional, plan⟩ := p
  simp only [weight, PropertyOf.mk.sizeOf_spec]
  omega

theorem weight_map_le (owner : String) (ps : List PropertyPlan) :
    weight (ps.map fun p => ⟨owner, p⟩) ≤ sizeOf ps := by
  induction ps with
  | nil => simp [weight]
  | cons p ps ih =>
    simp only [List.map_cons, weight, List.cons.sizeOf_spec]
    omega

theorem weight_owned_lt {o : ObjectPlan} {p : OwnedProperty} (h : p.property.plan = .inline (.object o)) :
    weight o.owned < sizeOf p.property := by
  obtain ⟨owner, name, optional, plan⟩ := p
  obtain ⟨oname, properties, additional⟩ := o
  have := weight_map_le oname properties
  simp only at h
  subst h
  simp only [ObjectOf.owned, PropertyOf.mk.sizeOf_spec, Plan.inline.sizeOf_spec,
    ShapeOf.object.sizeOf_spec, ObjectOf.mk.sizeOf_spec]
  omega

theorem plan_of_target? {t : Table} {p : Plan} {id : Nat} (h : t.target? p = some id) :
    t.plan id = .inline (t.shape p) := by
  fun_induction target? t p with
  | case1 => cases h
  | case2 id' ih =>
    rw [shape]
    cases hp : t.target? (t.plan id') with
    | some id'' =>
      simp only [hp, Option.getD_some, Option.some.injEq] at h
      exact ih (h ▸ hp)
    | none =>
      simp only [hp, Option.getD_none, Option.some.injEq] at h
      subst h
      cases hq : t.plan id' with
      | inline s => rw [shape]
      | named id'' =>
        rw [hq, target?] at hp
        cases hp

theorem inline_of_target?_eq_none {t : Table} {p : Plan} (h : t.target? p = none) :
    p = .inline (t.shape p) := by
  cases p with
  | inline s => rw [shape]
  | named id =>
    rw [target?] at h
    cases h

/-- An entry that is an object is one of the table's. -/
theorem lt_size_of_target? {t : Table} {p : Plan} {id : Nat} {o : ObjectPlan}
    (h : t.target? p = some id) (ho : t.shape p = .object o) : id < t.size := by
  refine Nat.lt_of_not_le fun hle => ?_
  have := plan_of_target? h
  rw [plan, planAt_of_le hle, ho] at this
  cases this

theorem unvisited_cons_lt {t : Table} {visited : List Nat} {id : Nat} (hid : id < t.size)
    (hv : id ∉ visited) : t.unvisited (id :: visited) < t.unvisited visited := by
  unfold unvisited
  generalize hl : List.range t.size = l
  have hmem : id ∈ l := hl ▸ List.mem_range.2 hid
  clear hl
  induction l with
  | nil => simp at hmem
  | cons a l ih =>
    have hle : l.countP (· ∉ id :: visited) ≤ l.countP (· ∉ visited) :=
      List.countP_mono_left fun n _ hn => by simp at hn ⊢; exact hn.2
    by_cases ha : a = id
    · subst ha
      simp only [List.countP_cons, List.mem_cons, true_or, not_true, decide_false, hv,
        not_false_eq_true, decide_true, if_true] at hle ⊢
      simpa using Nat.lt_succ_of_le hle
    · have hlt := ih ((List.mem_cons.1 hmem).resolve_left fun h => ha h.symm)
      have hhead : decide (a ∉ id :: visited) = decide (a ∉ visited) := by simp [ha]
      rw [List.countP_cons, List.countP_cons, hhead]
      omega

/-- Adds a mark to those of what follows. -/
def withMark (target : Option Nat) (operations : Operations) (rest : Except GenerateError Marks) :
    Except GenerateError Marks :=
  rest.map fun marks => (target.map fun id => (id, operations)).toList ++ marks

/-- Walks through properties and the objects they hold, depth first, and collects the marks. An
entry is entered once. -/
def walk (t : Table) (visited : List Nat) : List OwnedProperty → Except GenerateError Marks
  | [] => .ok []
  | p :: rest =>
    match _ : t.shape p.property.plan with
    | .choices _ =>
      withMark (t.target? p.property.plan) { parse := true, populate := true } (t.walk visited rest)
    | .object o =>
      match _ : t.target? p.property.plan with
      | none => t.walk visited (o.owned ++ rest)
      | some id =>
        if id ∈ visited then withMark (some id) { parse := true } (t.walk visited rest)
        else withMark (some id) { parse := true } (t.walk (id :: visited) (o.owned ++ rest))
    | .binary | .any | .function _ =>
      .error (.unsupportedManifestProperty p.owner p.property.name (t.kindName p.property.plan))
    | _ => t.walk visited rest
termination_by ps => (t.unvisited visited, weight ps)
decreasing_by
  · exact .right _ (weight_lt_cons p rest)
  · refine .right _ ?_
    have hp := inline_of_target?_eq_none ‹t.target? _ = none›
    rw [‹t.shape _ = .object o›] at hp
    have := weight_owned_lt hp
    rw [weight_append, weight]
    omega
  · exact .right _ (weight_lt_cons p rest)
  · exact .left _ _ (unvisited_cons_lt (lt_size_of_target? ‹_› ‹_›) ‹_›)
  · exact .right _ (weight_lt_cons p rest)

/-- The operations that a manifest with the given root asks for. -/
def manifestMarks (t : Table) (root : Nat) : Except GenerateError Marks :=
  match t.shape (.named root) with
  | .object o => withMark (some root) { parse := true } (t.walk [root] o.owned)
  | _ => .ok []

end Table

end Interchange
