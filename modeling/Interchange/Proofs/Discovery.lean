import Interchange.Plan.Definition
import Interchange.Proofs.Dict

/-! # Where references lead, and which definitions a search finds

References lead to declared types that are no references themselves (`isReference_of_chase`).
Whatever a search has found is still pending, or all that it refers to is found as well
(`Explored`); so in the end everything that is referred to is found (`key_mem_finish`).
-/

namespace Interchange

open Schema

/-! ## Declared types -/

namespace Registry

variable {r : Registry} {space target : String} {d : Declared}

/-- All types that are declared, with their namespaces; their names are the `qualifiedNames`. -/
def declarations (r : Registry) : List Declared :=
  r.namespaces.flatMap fun ns => ns.types.entries.map fun e => ⟨ns.name, e.1, e.2⟩

theorem mem_declarations_iff :
    d ∈ r.declarations ↔ ∃ ns ∈ r.namespaces, ns.name = d.space ∧ (d.name, d.type) ∈ ns.types.entries := by
  simp only [declarations, List.mem_flatMap, List.mem_map]
  constructor
  · intro ⟨ns, hns, e, he, h⟩
    subst h
    exact ⟨ns, hns, rfl, he⟩
  · intro ⟨ns, hns, hs, he⟩
    exact ⟨ns, hns, _, he, by rw [hs]⟩

theorem qualifiedNames_eq (r : Registry) : r.qualifiedNames = r.declarations.map (·.qualified) := by
  simp only [qualifiedNames, declarations, List.map_flatMap, List.map_map, Dict.keys]
  rfl

theorem mem_declarations_of_declared? {ns : Namespace} (hns : ns ∈ r.namespaces) {name : String}
    (h : declared? ns name = some d) : d ∈ r.declarations := by
  obtain ⟨t, ht, rfl⟩ := Option.map_eq_some_iff.mp h
  exact mem_declarations_iff.mpr ⟨ns, hns, rfl, Dict.mem_of_get? ht⟩

/-- A namespace knows its own types by their names, and then all types by their qualified names. -/
theorem lookup_eq_ok_iff : r.lookup space target = .ok d ↔ ∃ home, r.namespace? space = some home ∧
    (declared? home target = some d ∨
      declared? home target = none ∧ r.lookupQualified target = some d) := by
  unfold lookup getNamespace
  cases r.namespace? space with
  | none => simp [bind, Except.bind]
  | some home =>
    cases hd : declared? home target with
    | some d' => simp [bind, Except.bind, hd]
    | none => cases r.lookupQualified target <;> simp [bind, Except.bind, hd]

theorem mem_declarations_of_lookupQualified (h : r.lookupQualified target = some d) :
    d ∈ r.declarations := by
  simp only [lookupQualified, Option.bind_eq_bind, Option.bind_eq_some_iff] at h
  obtain ⟨⟨s, n⟩, -, ns, hs, hd⟩ := h
  exact mem_declarations_of_declared? (mem_of_namespace? hs) hd

theorem mem_declarations_of_lookup (h : r.lookup space target = .ok d) : d ∈ r.declarations := by
  obtain ⟨home, hhome, h⟩ := lookup_eq_ok_iff.mp h
  rcases h with hd | ⟨-, hq⟩
  · exact mem_declarations_of_declared? (mem_of_namespace? hhome) hd
  · exact mem_declarations_of_lookupQualified hq

theorem chase_of_error {seen : List String} {e : GenerateError}
    (hl : r.lookup space target = .error e) : r.chase seen space target = .error e := by
  rw [chase]
  split
  · rename_i h
    cases hl.symm.trans h
    rfl
  · rename_i h
    cases hl.symm.trans h

theorem chase_of_mem {seen : List String} (hl : r.lookup space target = .ok d)
    (hs : d.qualified ∈ seen) :
    r.chase seen space target = .error (.referenceCycle (seen ++ [d.qualified])) := by
  rw [chase]
  split
  · rename_i h
    cases hl.symm.trans h
  · rename_i h
    cases hl.symm.trans h
    rw [if_pos hs]

/-- Following by `chase` ends at a type that is no reference. -/
theorem chase_of_lookup {seen : List String} (hl : r.lookup space target = .ok d)
    (hs : d.qualified ∉ seen) (hk : d.type.kind.isReference = false) :
    r.chase seen space target = .ok d := by
  rw [chase]
  split
  · rename_i h
    cases hl.symm.trans h
  · rename_i h
    cases hl.symm.trans h
    rw [if_neg hs]
    split
    · rename_i hk'
      rw [hk'] at hk
      cases hk
    · rfl

/-- Following by `chase` goes on behind an alias, which is seen from then on. -/
theorem chase_of_alias {seen : List String} {next : String} (hl : r.lookup space target = .ok d)
    (hs : d.qualified ∉ seen) (hk : d.type.kind = .reference next) :
    r.chase seen space target = r.chase (seen ++ [d.qualified]) d.space next := by
  conv => lhs; rw [chase]
  split
  · rename_i h
    cases hl.symm.trans h
  · rename_i h
    cases hl.symm.trans h
    rw [if_neg hs]
    split
    · rename_i hk'
      cases hk.symm.trans hk'
      rfl
    · rename_i hk'
      exact absurd hk (hk' next)

theorem mem_declarations_of_chase {seen : List String} (h : r.chase seen space target = .ok d) :
    d ∈ r.declarations := by
  fun_induction chase r seen space target with
  | case1 => cases h
  | case2 => cases h
  | case3 _ _ _ _ _ _ _ _ ih => exact ih h
  | case4 _ _ _ d' hd =>
    cases h
    exact mem_declarations_of_lookup hd

/-- A reference is followed to the end. -/
theorem isReference_of_chase {seen : List String} (h : r.chase seen space target = .ok d) :
    d.type.kind.isReference = false := by
  fun_induction chase r seen space target with
  | case1 => cases h
  | case2 => cases h
  | case3 _ _ _ _ _ _ _ _ ih => exact ih h
  | case4 _ _ _ d' _ _ hk =>
    cases h
    cases hd : d.type.kind with
    | reference next => exact absurd hd (hk next)
    | _ => rfl

theorem follow_of_reference {t : Ty} (h : t.kind = .reference target) :
    r.follow space t = (r.chase [] space target).map Declared.resolved := by
  simp only [follow, h]

theorem follow_of_isReference {t : Ty} (h : t.kind.isReference = false) :
    r.follow space t = .ok ⟨space, t.name, t⟩ := by
  unfold follow
  split
  · rename_i target ht
    rw [ht] at h
    cases h
  · rfl

theorem destination?_eq_some_iff : r.destination? space target = some d ↔ r.chase [] space target = .ok d := by
  unfold destination?
  cases r.chase [] space target <;> simp [Except.toOption]

theorem mem_destinations_iff {targets : List String} {e : Definition} :
    e ∈ r.destinations space targets ↔
      ∃ target ∈ targets, ∃ d, r.destination? space target = some d ∧ .ofDeclared d = e := by
  simp only [destinations, List.mem_filterMap, Option.map_eq_some_iff]

theorem exists_of_destinations {targets : List String} {e : Definition}
    (h : e ∈ r.destinations space targets) : ∃ d ∈ r.declarations, e = .ofDeclared d := by
  obtain ⟨target, -, d, hd, rfl⟩ := mem_destinations_iff.mp h
  exact ⟨d, mem_declarations_of_chase (destination?_eq_some_iff.mp hd), rfl⟩

end Registry

/-- What a definition refers to, in the order in which `Discovery.finish` enters it. -/
def Definition.references (r : Registry) (d : Definition) : List Definition :=
  r.destinations d.space d.type.targets

/-! ## Searches -/

namespace Discovery

variable {r : Registry} {s s' s'' : Discovery} {d : Definition} {ds : List Definition}

/-- How a search goes on: nothing is lost, and what is new is pending. -/
structure Grows (s s' : Discovery) : Prop where
  found : ∀ d ∈ s.found, d ∈ s'.found
  pending : ∀ d ∈ s.pending, d ∈ s'.pending
  fresh : ∀ d ∈ s'.found, d ∈ s.found ∨ d ∈ s'.pending

theorem Grows.refl (s : Discovery) : Grows s s := ⟨fun _ h => h, fun _ h => h, fun _ h => .inl h⟩

theorem Grows.trans (h : Grows s s') (h' : Grows s' s'') : Grows s s'' where
  found d hd := h'.found d (h.found d hd)
  pending d hd := h'.pending d (h.pending d hd)
  fresh d hd := by
    rcases h'.fresh d hd with hd | hd
    · rcases h.fresh d hd with hd | hd
      · exact .inl hd
      · exact .inr (h'.pending d hd)
    · exact .inr hd

theorem Grows.key_mem (h : Grows s s') {k : String} (hk : k ∈ s.keys) : k ∈ s'.keys := by
  obtain ⟨d, hd, rfl⟩ := List.mem_map.mp hk
  exact List.mem_map.mpr ⟨d, h.found d hd, rfl⟩

theorem grows_enter (s : Discovery) (d : Definition) : Grows s (s.enter d) := by
  unfold enter
  split
  · exact .refl s
  · refine ⟨fun e he => List.mem_append_left _ he, fun e he => List.mem_cons_of_mem _ he, fun e he => ?_⟩
    rcases List.mem_append.mp he with he | he
    · exact .inl he
    · exact .inr (List.mem_singleton.mp he ▸ List.mem_cons_self)

theorem key_mem_enter (s : Discovery) (d : Definition) : d.key ∈ (s.enter d).keys := by
  unfold enter
  split
  · assumption
  · simp [keys]

theorem grows_enterAll (s : Discovery) (ds : List Definition) : Grows s (s.enterAll ds) := by
  induction ds generalizing s with
  | nil => exact .refl s
  | cons d ds ih => exact (grows_enter s d).trans (ih (s.enter d))

theorem key_mem_enterAll (s : Discovery) (hd : d ∈ ds) : d.key ∈ (s.enterAll ds).keys := by
  induction ds generalizing s with
  | nil => cases hd
  | cons e ds ih =>
    rcases List.mem_cons.mp hd with rfl | hd
    · exact (grows_enterAll (s.enter d) ds).key_mem (key_mem_enter s d)
    · exact ih (s.enter e) hd

/-- Everything that is found is pending, or all that it refers to is found. -/
def Explored (r : Registry) (s : Discovery) : Prop :=
  ∀ d ∈ s.found, d ∈ s.pending ∨ ∀ e ∈ d.references r, e.key ∈ s.keys

/-- Looking into a pending definition keeps a search `Explored`: the step of `finish`. -/
theorem Explored.step {rest : List Definition} (h : Explored r s) (hp : s.pending = d :: rest) :
    Explored r (enterAll ⟨s.found, rest⟩ (d.references r)) := by
  have hg := grows_enterAll ⟨s.found, rest⟩ (d.references r)
  intro d' hd'
  rcases hg.fresh d' hd' with hf | hf
  · rcases h d' hf with hpend | hrefs
    · rcases List.mem_cons.mp (hp ▸ hpend) with rfl | hrest
      · exact .inr fun e he => key_mem_enterAll _ he
      · exact .inl (hg.pending d' hrest)
    · exact .inr fun e he => hg.key_mem (hrefs e he)
  · exact .inl hf

theorem finish_of_nil (hp : s.pending = []) : s.finish r = s.found := by
  rw [finish]
  split
  · rfl
  · rename_i hp'
    cases hp.symm.trans hp'

theorem finish_of_pending {rest : List Definition} (hp : s.pending = d :: rest) :
    s.finish r = (enterAll ⟨s.found, rest⟩ (d.references r)).finish r := by
  rw [finish]
  split
  · rename_i hp'
    cases hp.symm.trans hp'
  · rename_i hp'
    cases hp.symm.trans hp'
    rfl

theorem mem_finish_of_found (r : Registry) (hd : d ∈ s.found) : d ∈ s.finish r := by
  fun_induction finish r s with
  | case1 => exact hd
  | case2 s d' rest hp ih => exact ih ((grows_enterAll ⟨s.found, rest⟩ _).found d hd)

/-- In the end everything that is referred to is found: nothing is pending where `finish` stops. -/
theorem key_mem_finish (h : Explored r s) (hd : d ∈ s.finish r) {e : Definition}
    (he : e ∈ d.references r) : e.key ∈ (s.finish r).map (·.key) := by
  fun_induction finish r s with
  | case1 s hp =>
    rcases h d hd with hpend | hrefs
    · rw [hp] at hpend
      cases hpend
    · exact hrefs e he
  | case2 s d' rest hp ih => exact ih (h.step hp) hd

/-- What holds of the definitions that are entered holds of all that are found then. -/
theorem forall_found_enterAll {P : Definition → Prop} (hs : ∀ d ∈ s.found, P d) (hds : ∀ d ∈ ds, P d) :
    ∀ d ∈ (s.enterAll ds).found, P d := by
  induction ds generalizing s with
  | nil => exact hs
  | cons d ds ih =>
    rw [List.forall_mem_cons] at hds
    refine ih ?_ hds.2
    rw [enter]
    split
    · exact hs
    · simp only [List.forall_mem_append, List.forall_mem_singleton]
      exact ⟨hs, hds.1⟩

/-- What holds of the definitions met so far, and of all that references lead to, holds of
everything that is found. -/
theorem forall_mem_finish {P : Definition → Prop}
    (hr : ∀ space targets, ∀ d ∈ r.destinations space targets, P d) (hs : ∀ d ∈ s.found, P d) :
    ∀ d ∈ s.finish r, P d := by
  fun_induction finish r s with
  | case1 => exact hs
  | case2 s d rest hp ih => exact ih (forall_found_enterAll hs (hr _ _))

end Discovery

end Interchange
