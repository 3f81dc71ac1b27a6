import Interchange.Proofs.Validation
import Mathlib.Data.List.Nodup

/-! # The definitions of a codec and their plans

Definitions are numbered by their keys, and a reference is compiled to the number of the key that it
leads to. All these keys are found (`covers_of_definitions`), so the numbers are those of entries
(`Of.exists_plan`). A key is a qualified name: what holds of the type that a reference leads to
holds of the plan it is compiled to only as long as no other type goes by the same qualified name
(`registrationKeys`).
-/

namespace Interchange

open Plan Schema
open Relation (ReflTransGen)

/-! ## References in types -/

namespace Schema

variable {t u : Ty} {target : String}

theorem mem_propertyTargets {ps : List (String × Property)} :
    target ∈ propertyTargets ps ↔ ∃ e ∈ ps, target ∈ e.2.type.targets := by
  induction ps with
  | nil => simp [propertyTargets]
  | cons e ps ih => simp [propertyTargets, ih]

theorem mem_typeTargets {ts : List Ty} : target ∈ typeTargets ts ↔ ∃ t ∈ ts, target ∈ t.targets := by
  induction ts with
  | nil => simp [typeTargets]
  | cons t ts ih => simp [typeTargets, ih]

/-- The `targets` of a type are its own and those of its parts. -/
theorem Ty.mem_targets_iff :
    target ∈ t.targets ↔ t.kind = .reference target ∨ ∃ u, Part u t ∧ target ∈ u.targets := by
  obtain ⟨name, kind, origin⟩ := t
  cases kind with
  | object ps a =>
    rw [Ty.targets, kindTargets, List.mem_append, mem_propertyTargets]
    refine ⟨fun h => .inr ?_, fun h => ?_⟩
    · rcases h with ⟨e, he, h⟩ | h
      · exact ⟨e.2.type, .property he, h⟩
      · cases a with
        | none => cases h
        | some a => exact ⟨a, .additional, h⟩
    · rcases h with h | ⟨u, hu, h⟩
      · cases h
      · cases hu with
        | property he => exact .inl ⟨_, he, h⟩
        | additional => exact .inr h
  | array items =>
    rw [Ty.targets, kindTargets]
    refine ⟨fun h => .inr ⟨items, .item, h⟩, fun h => ?_⟩
    rcases h with h | ⟨u, hu, h⟩
    · cases h
    · cases hu
      exact h
  | choices ts =>
    rw [Ty.targets, kindTargets, mem_typeTargets]
    refine ⟨fun ⟨u, hu, h⟩ => .inr ⟨u, .variant hu, h⟩, fun h => ?_⟩
    rcases h with h | ⟨u, hu, h⟩
    · cases h
    · cases hu with
      | variant hu => exact ⟨_, hu, h⟩
  | reference target' =>
    rw [Ty.targets, kindTargets, List.mem_singleton, Kind.reference.injEq]
    refine ⟨fun h => .inl h.symm, fun h => ?_⟩
    rcases h with h | ⟨u, hu, -⟩
    · exact h.symm
    · cases hu
  | boolean | integer | int64 | double | string | any | binary | enumeration | function =>
    refine ⟨fun h => ?_, fun h => ?_⟩
    · simp [Ty.targets, kindTargets] at h
    · rcases h with h | ⟨u, hu, -⟩
      · cases h
      · cases hu

theorem Ty.exists_of_mem_targets {t : Ty} (h : target ∈ t.targets) :
    ∃ u, ReflTransGen Part u t ∧ u.kind = .reference target := by
  rcases Ty.mem_targets_iff.mp h with ht | ⟨u, hu, h⟩
  · exact ⟨t, .refl, ht⟩
  · obtain ⟨w, hw, hk⟩ := Ty.exists_of_mem_targets h
    exact ⟨w, hw.tail hu, hk⟩
termination_by sizeOf t
decreasing_by exact Ty.Part.sizeOf_lt hu

end Schema

namespace Registry

variable {r : Registry} {keys : List String} {space target : String} {t u : Ty}

/-- The key of the `destination?` of every reference in a type is known. -/
def Covers (r : Registry) (keys : List String) (space : String) (t : Ty) : Prop :=
  ∀ target ∈ t.targets, ∀ d, r.destination? space target = some d → d.qualified ∈ keys

theorem Covers.part (h : r.Covers keys space t) (hu : Ty.Part u t) : r.Covers keys space u :=
  fun target ht => h target (Ty.mem_targets_iff.mpr (.inr ⟨u, hu, ht⟩))

theorem covers_of_references {d : Definition} (h : ∀ e ∈ d.references r, e.key ∈ keys) :
    r.Covers keys d.space d.type :=
  fun target ht d' hd => h (.ofDeclared d') (mem_destinations_iff.mpr ⟨target, ht, d', hd, rfl⟩)

/-- A validated type refers to declared types only: each of its `targets` has a `destination?`. -/
theorem exists_destination? (hv : r.validate = .ok ()) (h : r.HoldsIn space t) (ht : target ∈ t.targets) :
    ∃ d, r.destination? space target = some d := by
  obtain ⟨u, hu, hk⟩ := Ty.exists_of_mem_targets ht
  obtain ⟨ns, hns, hs, root, hroot, hpart⟩ := h
  obtain ⟨d, hd⟩ := exists_chase_of_validate hv ⟨ns, hns, hs, root, hroot, hu.trans hpart⟩ hk
  exact ⟨d, destination?_eq_some_iff.mpr hd⟩

/-- The keys of the roots of manifests. -/
def manifestKeys (r : Registry) : List String :=
  (r.namespaces.filter (·.manifest.isSome)).map fun ns => Codec.manifestKey ns.name

/-- The keys of everything that can be registered: of the declared types and of the manifests. -/
def registrationKeys (r : Registry) : List String := r.qualifiedNames ++ r.manifestKeys

/-- Where no two types have a qualified name in common, it tells which type is meant. -/
theorem eq_of_qualified_eq (hk : r.qualifiedNames.Nodup) {d d' : Declared} (hd : d ∈ r.declarations)
    (hd' : d' ∈ r.declarations) (h : d.qualified = d'.qualified) : d = d' := by
  rw [qualifiedNames_eq] at hk
  exact List.inj_on_of_nodup_map hk hd hd' h

theorem qualified_ne_manifestKey (hk : r.registrationKeys.Nodup) {ns : Namespace}
    (hns : ns ∈ r.namespaces) (hm : ns.manifest = some t) {d : Declared} (hd : d ∈ r.declarations) :
    d.qualified ≠ Codec.manifestKey ns.name := by
  refine (List.nodup_append.mp hk).2.2 _ ?_ _ ?_
  · rw [qualifiedNames_eq]
    exact List.mem_map.mpr ⟨d, hd, rfl⟩
  · exact List.mem_map.mpr ⟨ns, List.mem_filter.mpr ⟨hns, by rw [hm]; rfl⟩, rfl⟩

end Registry

/-! ## Numbers -/

namespace Plan

variable {r : Registry} {keys : List String} {space target owner : String} {t : Ty}

theorem ofReference_of_destination? {d : Declared} (h : r.destination? space target = some d) :
    ofReference r keys space target = .named (keys.idxOf d.qualified) := by
  simp only [ofReference, h]

theorem ofType_of_reference (h : t.kind = .reference target) :
    ofType r keys space owner t = ofReference r keys space target := by
  obtain ⟨name, kind, origin⟩ := t
  cases h
  rw [ofType, ofKind]

/-- Only references are compiled to numbers, and where `Covers` holds these are positions of keys.
-/
theorem lt_of_ofType_eq_named (h : r.Covers keys space t) {id : Nat}
    (ht : ofType r keys space owner t = .named id) : id < keys.length := by
  obtain ⟨name, kind, origin⟩ := t
  cases kind with
  | reference target =>
    rw [ofType_of_reference rfl] at ht
    cases hd : r.destination? space target with
    | none =>
      rw [ofReference, hd] at ht
      cases ht
    | some d =>
      rw [ofReference_of_destination? hd] at ht
      cases ht
      exact List.idxOf_lt_length_of_mem (h target (Ty.mem_targets_iff.mpr (.inl rfl)) d hd)
  | object | array | choices | boolean | integer | int64 | double | string | any | binary | enumeration
  | function =>
    rw [ofType, ofKind] at ht
    cases ht

end Plan

namespace Codec

variable {r : Registry} {ns : Namespace} {settings : Settings} {name key : String} {c : Codec}

/-- The keys of all `definitions` that a namespace needs, in order. -/
def keys (r : Registry) (ns : Namespace) : List String := (definitions r ns).map (·.key)

theorem explored_roots (r : Registry) (ns : Namespace) :
    ((Discovery.mk [] []).enterAll (roots r ns)).Explored r := by
  intro d hd
  rcases (Discovery.grows_enterAll _ _).fresh d hd with h | h
  · cases h
  · exact .inl h

theorem key_mem_of_roots {d : Definition} (hd : d ∈ roots r ns) : d.key ∈ keys r ns := by
  obtain ⟨d', hd', hk⟩ := List.mem_map.mp (Discovery.key_mem_enterAll (Discovery.mk [] []) hd)
  exact List.mem_map.mpr ⟨d', Discovery.mem_finish_of_found r hd', hk⟩

/-- The keys of the declared types are found, and their entries with them. -/
theorem key_mem_of_type {e : String × Ty} (he : e ∈ ns.types.entries) :
    qualify ns.name e.1 ∈ keys r ns := by
  refine key_mem_of_roots (d := typeDefinition ns.name e.1 e.2) ?_
  exact List.mem_append_left _ (List.mem_append_left _ (List.mem_map.mpr ⟨e, he, rfl⟩))

/-- So is that of the manifest's root. -/
theorem key_mem_of_manifest {t : Ty} (ht : ns.manifest = some t) : manifestKey ns.name ∈ keys r ns := by
  refine key_mem_of_roots (d := manifestDefinition ns.name t) ?_
  refine List.mem_append_left _ (List.mem_append_right _ ?_)
  exact List.mem_map.mpr ⟨t, by rw [ht]; exact List.mem_singleton_self t, rfl⟩

theorem covers_of_definitions {d : Definition} (hd : d ∈ definitions r ns) :
    r.Covers (keys r ns) d.space d.type :=
  Registry.covers_of_references fun _ he => Discovery.key_mem_finish (explored_roots r ns) hd he

theorem mem_callTargets {target : String} :
    target ∈ callTargets ns ↔ ∃ ps ∈ ns.paramLists, ∃ q ∈ ps, target ∈ q.type.targets := by
  simp only [callTargets, Namespace.paramLists, paramTargets, List.mem_append, List.mem_flatMap,
    List.mem_map, List.mem_cons, Option.mem_toList]
  refine ⟨fun h => ?_, fun h => ?_⟩
  · rcases h with ⟨f, hf, ⟨q, hq, h⟩ | ⟨q, hq, h⟩⟩ | ⟨e, he, q, hq, h⟩
    · exact ⟨f.params, .inl ⟨f, hf, .inl rfl⟩, q, hq, h⟩
    · cases hres : f.results with
      | none =>
        rw [hres] at hq
        cases hq
      | some ps =>
        rw [hres] at hq
        exact ⟨ps, .inl ⟨f, hf, .inr hres⟩, q, hq, h⟩
    · exact ⟨e.params, .inr ⟨e, he, rfl⟩, q, hq, h⟩
  · obtain ⟨ps, ⟨f, hf, rfl | hps⟩ | ⟨e, he, rfl⟩, q, hq, h⟩ := h
    · exact .inl ⟨f, hf, .inl ⟨q, hq, h⟩⟩
    · exact .inl ⟨f, hf, .inr ⟨q, by rwa [hps], h⟩⟩
    · exact .inr ⟨e, he, q, hq, h⟩

theorem covers_of_params {ps : List Property} (hps : ps ∈ ns.paramLists) {q : Property} (hq : q ∈ ps) :
    r.Covers (keys r ns) ns.name q.type := by
  intro target ht d hd
  refine key_mem_of_roots (d := .ofDeclared d) (List.mem_append_right _ ?_)
  exact Registry.mem_destinations_iff.mpr ⟨target, mem_callTargets.mpr ⟨ps, hps, q, hq, ht⟩, d, hd, rfl⟩

/-! ## Entries -/

theorem Of.size_eq (hc : Of r ns c) : c.table.size = (keys r ns).length := by
  simp [Table.size, hc.entries, keys]

theorem Of.idxOf_lt (hc : Of r ns c) {key : String} (hk : key ∈ keys r ns) :
    (keys r ns).idxOf key < c.table.size := by
  rw [hc.size_eq]
  exact List.idxOf_lt_length_of_mem hk

/-- The entry that has the number of a key is the plan of the definition with the key, its `ofType`.
-/
theorem Of.exists_plan (hc : Of r ns c) (hk : key ∈ keys r ns) :
    ∃ d ∈ definitions r ns, d.key = key ∧
      c.table.plan ((keys r ns).idxOf key) = ofType r (keys r ns) d.space d.display d.type := by
  have hlt : (keys r ns).idxOf key < (definitions r ns).length := by
    simpa [keys] using List.idxOf_lt_length_of_mem hk
  refine ⟨(definitions r ns)[(keys r ns).idxOf key], List.getElem_mem hlt, ?_, ?_⟩
  · have hget := List.getElem_idxOf (List.idxOf_lt_length_of_mem hk)
    simpa only [keys, List.getElem_map] using hget
  · rw [Table.plan, planAt, hc.entries, List.getElem?_map, List.getElem?_eq_getElem hlt]
    rfl

/-- With distinct `registrationKeys` the entry of a declared type is the plan of that type. -/
theorem Of.plan_of_declaration (hc : Of r ns c) (hk : r.registrationKeys.Nodup) {d : Declared}
    (hd : d ∈ r.declarations) (hm : d.qualified ∈ keys r ns) :
    .ofDeclared d ∈ definitions r ns ∧ c.table.plan ((keys r ns).idxOf d.qualified) =
      ofType r (keys r ns) d.space d.qualified d.type := by
  obtain ⟨d', hd', hkey, hplan⟩ := hc.exists_plan hm
  rcases definition_cases hc.mem d' hd' with ⟨d'', hd'', rfl⟩ | ⟨t, ht, rfl⟩
  · obtain rfl := Registry.eq_of_qualified_eq (List.nodup_append.mp hk).1 hd'' hd hkey
    exact ⟨hd', hplan⟩
  · exact absurd hkey.symm (Registry.qualified_ne_manifestKey hk hc.mem ht hd)

/-- So is the entry of the manifest's root. -/
theorem Of.plan_of_manifest (hc : Of r ns c) (hk : r.registrationKeys.Nodup) {t : Ty}
    (ht : ns.manifest = some t) :
    manifestDefinition ns.name t ∈ definitions r ns ∧
      c.table.plan ((keys r ns).idxOf (manifestKey ns.name)) =
        ofType r (keys r ns) ns.name (qualify ns.name (manifestName t)) t := by
  obtain ⟨d, hd, hkey, hplan⟩ := hc.exists_plan (key_mem_of_manifest ht)
  rcases definition_cases hc.mem d hd with ⟨d', hd', rfl⟩ | ⟨t', ht', rfl⟩
  · exact absurd hkey (Registry.qualified_ne_manifestKey hk hc.mem ht hd')
  · rw [ht] at ht'
    cases ht'
    exact ⟨hd, hplan⟩

/-! ## References with one plan -/

/-- A reference that is compiled for a namespace: it stands in one of the `definitions`, or among
the parameters of a function or event (`callTargets`). -/
def Refers (r : Registry) (ns : Namespace) (space target : String) : Prop :=
  (∃ d ∈ definitions r ns, d.space = space ∧ target ∈ d.type.targets) ∨
    space = ns.name ∧ target ∈ callTargets ns

instance (r : Registry) (ns : Namespace) (space target : String) : Decidable (Refers r ns space target) :=
  inferInstanceAs (Decidable ((∃ d ∈ definitions r ns, d.space = space ∧ target ∈ d.type.targets) ∨
    space = ns.name ∧ target ∈ callTargets ns))

/-- A reference that is compiled leads to one of the `declarations`, whose key is found. -/
theorem Refers.exists_destination? {space target : String} (hv : r.validate = .ok ())
    (hns : ns ∈ r.namespaces) (h : Refers r ns space target) :
    ∃ d ∈ r.declarations, r.destination? space target = some d ∧ d.qualified ∈ keys r ns := by
  obtain ⟨t, hin, hcov, ht⟩ : ∃ t, r.HoldsIn space t ∧ r.Covers (keys r ns) space t ∧ target ∈ t.targets := by
    rcases h with ⟨d, hd, rfl, ht⟩ | ⟨rfl, ht⟩
    · exact ⟨d.type, holdsIn_of_definitions hns hd, covers_of_definitions hd, ht⟩
    · obtain ⟨ps, hps, q, hq, ht⟩ := mem_callTargets.mp ht
      exact ⟨q.type, Registry.holdsIn_of_param hns hps hq, covers_of_params hps hq, ht⟩
  obtain ⟨d, hd⟩ := Registry.exists_destination? hv hin ht
  have hchase := Registry.destination?_eq_some_iff.mp hd
  exact ⟨d, Registry.mem_declarations_of_chase hchase, hd, hcov target ht d hd⟩

/-- Every reference is compiled to the number of an entry. Two references have the same number if
and only if the types they lead to have the same qualified name; where no two types share one, these
are the same type of the same namespace. -/
theorem number_eq_iff_of_generate (h : generate r settings name = .ok c) :
    ∃ ns, r.namespace? name = some ns ∧ ∀ space target space' target',
      Refers r ns space target → Refers r ns space' target' →
      ∃ d d' id id', r.destination? space target = some d ∧ r.destination? space' target' = some d' ∧
        ofReference r (keys r ns) space target = .named id ∧ id < c.table.size ∧
        ofReference r (keys r ns) space' target' = .named id' ∧ id' < c.table.size ∧
        (id = id' ↔ d.qualified = d'.qualified) ∧ (r.qualifiedNames.Nodup → (id = id' ↔ d = d')) := by
  obtain ⟨ns, hv, hns, hc⟩ := exists_of_generate h
  refine ⟨ns, hns, fun space target space' target' href href' => ?_⟩
  obtain ⟨d, hdecl, hd, hk⟩ := href.exists_destination? hv hc.mem
  obtain ⟨d', hdecl', hd', hk'⟩ := href'.exists_destination? hv hc.mem
  have hiff : (keys r ns).idxOf d.qualified = (keys r ns).idxOf d'.qualified ↔ d.qualified = d'.qualified :=
    List.idxOf_inj hk
  exact ⟨d, d', _, _, hd, hd', ofReference_of_destination? hd, hc.idxOf_lt hk,
    ofReference_of_destination? hd', hc.idxOf_lt hk', hiff,
    fun hnodup => hiff.trans ⟨Registry.eq_of_qualified_eq hnodup hdecl hdecl', congrArg _⟩⟩

end Codec

/-! ## Homonyms

The name of a type may contain a point, and so may that of a namespace. Then two types can go by the
same qualified name. -/

namespace Homonyms

/-- One property refers to a type of this namespace, the other one to a type of another namespace.
-/
def pair : Ty :=
  ((Ty.object [⟨"own", false, Ty.ofKind (.reference "b.c")⟩,
    ⟨"other", false, Ty.ofKind (.reference "a.b.c")⟩]).named "Pair").withOrigin .jsonAndClient

def outer : Namespace :=
  ((Namespace.empty "a").withType ((Ty.ofKind .integer).named "b.c")).withType pair

def inner : Namespace := (Namespace.empty "a.b").withType ((Ty.ofKind .string).named "c")

def registry : Registry where
  namespaces := [outer, inner]
  distinct := by decide

theorem exists_codec : ∃ c, Codec.generate registry {} "a" = .ok c :=
  Codec.exists_of_isOk (by decide +kernel)

/-- The namespace, the name and the kind of the type that a reference leads to. -/
def meaning (target : String) : Option (String × String × Tag) :=
  (registry.destination? "a" target).map fun d => (d.space, d.name, d.type.kind.tag)

/-- Both properties of the pair have the integer of their own namespace as plan, though one of them
refers to the string of the other namespace. -/
theorem number_eq_of_ne :
    (∃ c, Codec.generate registry {} "a" = .ok c) ∧
      Codec.Refers registry outer "a" "b.c" ∧ Codec.Refers registry outer "a" "a.b.c" ∧
      meaning "b.c" = some ("a", "b.c", .integer) ∧ meaning "a.b.c" = some ("a.b", "c", .string) ∧
      ofReference registry (Codec.keys registry outer) "a" "b.c" = .named 0 ∧
      ofReference registry (Codec.keys registry outer) "a" "a.b.c" = .named 0 := by
  have hpoint : ∀ target ∈ ["b.c", "a.b.c"], ((registry.destination? "a" target).map fun d =>
      (Codec.keys registry outer).idxOf d.qualified) = some 0 := by decide +kernel
  have hnumber : ∀ target ∈ ["b.c", "a.b.c"],
      ofReference registry (Codec.keys registry outer) "a" target = .named 0 := by
    intro target ht
    obtain ⟨d, hd, hid⟩ := Option.map_eq_some_iff.mp (hpoint target ht)
    rw [ofReference_of_destination? hd, hid]
  exact ⟨exists_codec, by decide +kernel, by decide +kernel, by decide +kernel, by decide +kernel,
    hnumber _ (by simp), hnumber _ (by simp)⟩

end Homonyms

theorem Codec.number_eq_iff_of_generate_homonyms :
    ∃ c, generate Homonyms.registry {} "a" = .ok c ∧
      Refers Homonyms.registry Homonyms.outer "a" "b.c" ∧ Refers Homonyms.registry Homonyms.outer "a" "a.b.c" ∧
      ∃ d d' id id', Homonyms.registry.destination? "a" "b.c" = some d ∧
        Homonyms.registry.destination? "a" "a.b.c" = some d' ∧
        ofReference Homonyms.registry (keys Homonyms.registry Homonyms.outer) "a" "b.c" = .named id ∧
        id < c.table.size ∧
        ofReference Homonyms.registry (keys Homonyms.registry Homonyms.outer) "a" "a.b.c" = .named id' ∧
        id' < c.table.size ∧ (id = id' ↔ d.qualified = d'.qualified) ∧
        (Homonyms.registry.qualifiedNames.Nodup → (id = id' ↔ d = d')) := by
  obtain ⟨c, hc⟩ := Homonyms.exists_codec
  obtain ⟨ns, hns, h⟩ := number_eq_iff_of_generate hc
  obtain rfl : Homonyms.outer = ns := Option.some.inj hns
  have hown : Refers Homonyms.registry Homonyms.outer "a" "b.c" := by decide +kernel
  have hother : Refers Homonyms.registry Homonyms.outer "a" "a.b.c" := by decide +kernel
  exact ⟨c, hc, hown, hother, h _ _ _ _ hown hother⟩

end Interchange
