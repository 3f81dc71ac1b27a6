import Interchange.Proofs.Scope

/-! # What validation establishes

Whatever is demanded of a type that stands in another one is demanded of that one too; so in a
validated registry every reference can be followed, however deep it stands
(`exists_chase_of_validate`).
-/

namespace Interchange

open Schema
open Relation (ReflTransGen)

/-- A run over a list meets no error if and only if none of its steps does. -/
theorem forM_eq_ok_iff {ε α : Type} {f : α → Except ε Unit} {as : List α} :
    as.forM f = .ok () ↔ ∀ a ∈ as, f a = .ok () := by
  induction as with
  | nil => exact ⟨fun _ _ h => (nomatch h), fun _ => rfl⟩
  | cons a as ih =>
    change (f a >>= fun _ => as.forM f) = _ ↔ _
    rw [Codec.bind_eq_ok_iff, List.forall_mem_cons]
    exact ⟨fun ⟨_, ha, has⟩ => ⟨ha, ih.mp has⟩, fun ⟨ha, has⟩ => ⟨(), ha, ih.mpr has⟩⟩

namespace Registry

variable {r : Registry} {ns : Namespace} {space target place : String} {t u : Ty} {x : Demand}

theorem mem_propertyDemands {ps : List (String × Property)} {e : String × Property} (he : e ∈ ps)
    (hx : x ∈ demands (place ++ "." ++ e.1) e.2.type) : x ∈ propertyDemands place ps := by
  induction ps with
  | nil => cases he
  | cons e' ps ih =>
    obtain ⟨key, name, optional, type⟩ := e'
    rw [propertyDemands, List.mem_append]
    rcases List.mem_cons.mp he with rfl | he
    · exact .inl hx
    · exact .inr (ih he)

theorem mem_variantDemands {ts : List Ty} (ht : t ∈ ts) (hx : x ∈ demands place t) :
    x ∈ variantDemands place ts := by
  induction ts with
  | nil => cases ht
  | cons t' ts ih =>
    rw [variantDemands, List.mem_append]
    rcases List.mem_cons.mp ht with rfl | ht
    · exact .inl hx
    · exact .inr (ih ht)

/-- The `demands` of a part are demands of the whole. -/
theorem exists_demands_of_part (h : Ty.Part u t) (place : String) :
    ∃ place', ∀ x ∈ demands place' u, x ∈ demands place t := by
  cases h with
  | item => exact ⟨place, fun x hx => by rwa [demands, kindDemands]⟩
  | @property _ _ _ _ e he =>
    refine ⟨place ++ "." ++ e.1, fun x hx => ?_⟩
    rw [demands, kindDemands]
    exact List.mem_append_left _ (mem_propertyDemands he hx)
  | additional =>
    refine ⟨place, fun x hx => ?_⟩
    rw [demands, kindDemands, additionalDemands]
    exact List.mem_append_right _ hx
  | variant ht =>
    refine ⟨place, fun x hx => ?_⟩
    rw [demands, kindDemands]
    exact List.mem_cons_of_mem _ (mem_variantDemands ht hx)

theorem exists_demands_of_within (h : ReflTransGen Ty.Part u t) (place : String) :
    ∃ place', ∀ x ∈ demands place' u, x ∈ demands place t := by
  induction h using ReflTransGen.head_induction_on with
  | refl => exact ⟨place, fun _ hx => hx⟩
  | head hu _ ih =>
    obtain ⟨place', ih⟩ := ih
    obtain ⟨place'', hp⟩ := exists_demands_of_part hu place'
    exact ⟨place'', fun x hx => ih x (hp x hx)⟩

theorem leads_mem_demands (h : t.kind = .reference target) (place : String) :
    Demand.leads t ∈ demands place t := by
  obtain ⟨name, kind, origin⟩ := t
  cases h
  rw [demands, kindDemands]
  exact List.mem_singleton_self _

theorem mem_paramDemands {owner : String} {ps : List Property} {q : Property} (hq : q ∈ ps)
    (hx : x ∈ demands (owner ++ "." ++ q.name) q.type) : x ∈ paramDemands owner ps :=
  List.mem_flatMap.mpr ⟨q, hq, hx⟩

theorem exists_paramDemands {ps : List Property} (hps : ps ∈ ns.paramLists) :
    ∃ owner, ∀ x ∈ paramDemands owner ps, x ∈ namespaceDemands ns := by
  simp only [Namespace.paramLists, List.mem_append, List.mem_flatMap, List.mem_map, List.mem_cons,
    Option.mem_toList] at hps
  rcases hps with ⟨f, hf, rfl | hps⟩ | ⟨e, he, rfl⟩
  · refine ⟨f.name, fun x hx => List.mem_append_left _ (List.mem_append_right _ ?_)⟩
    exact List.mem_flatMap.mpr ⟨f, hf, List.mem_append_left _ hx⟩
  · refine ⟨f.name, fun x hx => List.mem_append_left _ (List.mem_append_right _ ?_)⟩
    refine List.mem_flatMap.mpr ⟨f, hf, List.mem_append_right _ ?_⟩
    rwa [hps, Option.getD_some]
  · exact ⟨e.name, fun x hx => List.mem_append_right _ (List.mem_flatMap.mpr ⟨e, he, hx⟩)⟩

/-- The `demands` of the types of a namespace are demands of the namespace. -/
theorem exists_demands_of_root (h : t ∈ ns.rootTypes) :
    ∃ place, ∀ x ∈ demands place t, x ∈ namespaceDemands ns := by
  rcases List.mem_append.mp h with h | h
  · rcases List.mem_append.mp h with h | h
    · obtain ⟨e, he, rfl⟩ := List.mem_map.mp h
      refine ⟨e.1, fun x hx => ?_⟩
      apply List.mem_append_left
      apply List.mem_append_left
      exact List.mem_append_left _ (List.mem_flatMap.mpr ⟨e, he, hx⟩)
    · refine ⟨t.name.getD "manifest_keys", fun x hx => ?_⟩
      apply List.mem_append_left
      apply List.mem_append_left
      exact List.mem_append_right _ (List.mem_flatMap.mpr ⟨t, h, hx⟩)
  · obtain ⟨ps, hps, h⟩ := List.mem_flatMap.mp h
    obtain ⟨q, hq, rfl⟩ := List.mem_map.mp h
    obtain ⟨owner, ho⟩ := exists_paramDemands hps
    exact ⟨owner ++ "." ++ q.name, fun x hx => ho x (mem_paramDemands hq hx)⟩

/-- In a validated registry every reference leads somewhere. -/
theorem exists_chase_of_validate (hv : r.validate = .ok ()) (h : r.HoldsIn space t)
    (ht : t.kind = .reference target) : ∃ d, r.chase [] space target = .ok d := by
  obtain ⟨ns, hns, rfl, root, hroot, hpart⟩ := h
  obtain ⟨place, hroot⟩ := exists_demands_of_root hroot
  obtain ⟨place', hpart⟩ := exists_demands_of_within hpart place
  have hdemand : Demand.leads t ∈ namespaceDemands ns := hroot _ (hpart _ (leads_mem_demands ht place'))
  have hmeet := forM_eq_ok_iff.mp (forM_eq_ok_iff.mp hv ns hns) _ hdemand
  rw [meet, follow_of_reference ht] at hmeet
  cases hc : r.chase [] ns.name target with
  | error e =>
    rw [hc] at hmeet
    cases hmeet
  | ok d => exact ⟨d, rfl⟩

end Registry

end Interchange
