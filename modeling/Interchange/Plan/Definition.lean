import Interchange.Registry.Basic

/-! # The definitions that a namespace needs a plan for

Its own types, and every type that is reached from them by references.

Definitions are told apart by a key and numbered in the order in which they are met (`Discovery`).
Those that have not been looked into wait on a stack, which `Discovery.finish` works off.
-/

namespace Interchange

open Schema

structure Definition where
  key : String
  /-- What diagnostics show. -/
  display : String
  /-- The namespace in which references of the type are looked up. -/
  space : String
  type : Ty

def Definition.ofDeclared (d : Declared) : Definition := ⟨d.qualified, d.qualified, d.space, d.type⟩

namespace Schema

mutual

/-- The references in a type, in order. -/
def Ty.targets : Ty → List String
  | ⟨_, kind, _⟩ => kindTargets kind

def kindTargets : Kind Ty → List String
  | .reference target => [target]
  | .object ⟨properties⟩ additional => propertyTargets properties ++ additionalTargets additional
  | .array items => items.targets
  | .choices variants => typeTargets variants
  | _ => []

def propertyTargets : List (String × PropertyOf Ty) → List String
  | [] => []
  | (_, ⟨_, _, type⟩) :: ps => type.targets ++ propertyTargets ps

def additionalTargets : Option Ty → List String
  | none => []
  | some t => t.targets

def typeTargets : List Ty → List String
  | [] => []
  | t :: ts => t.targets ++ typeTargets ts

end

def paramTargets (params : List Property) : List String := params.flatMap (·.type.targets)

end Schema

namespace Registry

/-- The type that a reference leads to, by `chase`. -/
def destination? (r : Registry) (space target : String) : Option Declared :=
  (r.chase [] space target).toOption

theorem qualified_mem_of_chase {r : Registry} {seen : List String} {space target : String}
    {d : Declared} (h : r.chase seen space target = .ok d) : d.qualified ∈ r.qualifiedNames := by
  fun_induction chase r seen space target with
  | case1 => cases h
  | case2 => cases h
  | case3 _ _ _ _ _ _ _ _ ih => exact ih h
  | case4 _ _ _ d' hd =>
    cases h
    exact qualified_mem_of_lookup hd

theorem qualified_mem_of_destination? {r : Registry} {space target : String} {d : Declared}
    (h : r.destination? space target = some d) : d.qualified ∈ r.qualifiedNames := by
  unfold destination? at h
  cases hc : r.chase [] space target with
  | error e => simp [hc, Except.toOption] at h
  | ok d' =>
    simp only [hc, Except.toOption, Option.some.injEq] at h
    exact h ▸ qualified_mem_of_chase hc

/-- The definitions that references lead to; a reference without a `destination?` is passed over. -/
def destinations (r : Registry) (space : String) (targets : List String) : List Definition :=
  targets.filterMap fun target => (r.destination? space target).map .ofDeclared

theorem key_mem_of_destinations {r : Registry} {space : String} {targets : List String}
    {d : Definition} (h : d ∈ r.destinations space targets) : d.key ∈ r.qualifiedNames := by
  obtain ⟨target, -, h⟩ := List.mem_filterMap.1 h
  obtain ⟨d', hd, rfl⟩ := Option.map_eq_some_iff.1 h
  exact qualified_mem_of_destination? hd

end Registry

/-- The definitions met so far, in order, and those among them still to be looked into. -/
structure Discovery where
  found : List Definition := []
  pending : List Definition := []

namespace Discovery

def keys (s : Discovery) : List String := s.found.map (·.key)

/-- Meets a definition; one with its key may be known already. -/
def enter (s : Discovery) (d : Definition) : Discovery :=
  if d.key ∈ s.keys then s else ⟨s.found ++ [d], d :: s.pending⟩

def enterAll (s : Discovery) (ds : List Definition) : Discovery := ds.foldl enter s

/-- What is left to do at most, for the termination of `finish`. -/
def work (names : List String) (s : Discovery) : Nat :=
  2 * Registry.unseen names s.keys + s.pending.length

theorem work_enter_le {names : List String} {s : Discovery} {d : Definition} (h : d.key ∈ names) :
    work names (s.enter d) ≤ work names s := by
  unfold enter
  split
  · exact Nat.le_refl _
  · rename_i hd
    have := Registry.unseen_append_lt h hd
    simp only [work, keys, List.map_append, List.map_cons, List.map_nil, List.length_cons] at *
    omega

theorem work_enterAll_le {names : List String} {s : Discovery} {ds : List Definition}
    (h : ∀ d ∈ ds, d.key ∈ names) : work names (s.enterAll ds) ≤ work names s := by
  induction ds generalizing s with
  | nil => exact Nat.le_refl _
  | cons d ds ih =>
    exact Nat.le_trans (ih fun d hd => h d (List.mem_cons_of_mem _ hd)) (work_enter_le (h d (by simp)))

/-- Looks into everything that is pending, what was met last first. -/
def finish (r : Registry) (s : Discovery) : List Definition :=
  match _ : s.pending with
  | [] => s.found
  | d :: rest =>
    finish r (enterAll ⟨s.found, rest⟩ (r.destinations d.space d.type.targets))
termination_by work r.qualifiedNames s
decreasing_by
  have hp : s.pending = d :: rest := ‹_›
  refine Nat.lt_of_le_of_lt (work_enterAll_le fun _ => Registry.key_mem_of_destinations) ?_
  simp [work, keys, hp]

end Discovery

end Interchange
