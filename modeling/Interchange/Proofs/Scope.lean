import Interchange.Codec.Basic
import Interchange.Proofs.Discovery
import Interchange.Schema.Builder
import Mathlib.Logic.Relation

/-! # The plans of a codec and the types that they come from

The plans that a plan leads to, through a table (`Table.Within`), and the plans of a generated codec
(`Codec.Mentions`). Every shape of a codec comes from a type of its registry (`Of.sourced_shape`),
so what is promised of types holds of plans: names of properties are distinct
(`uniqueNames_of_generate`), and enumerations are small (`smallEnums_of_generate`).
-/

namespace Interchange

open Plan Schema
open Relation (ReflTransGen)

/-! ## Plans -/

/-- A plan that stands directly in another one. -/
inductive Plan.Part : Plan → Plan → Prop
  | item {q : Plan} : Part q (.inline (.array q))
  | property {o : ObjectPlan} {q : PropertyPlan} (h : q ∈ o.properties) :
      Part q.plan (.inline (.object o))
  | additional {o : ObjectPlan} {q : Plan} (h : o.additional = some q) : Part q (.inline (.object o))
  | variant {c : ChoicesPlan} {w : VariantPlan} (h : w ∈ c.variants) :
      Part w.plan (.inline (.choices c))

namespace Table

variable {t : Table} {p q : Plan}

/-- A plan that stands directly in the `shape` that another one stands for. -/
def Part (t : Table) (q p : Plan) : Prop := Plan.Part q (.inline (t.shape p))

/-- A plan that another one leads to, at any depth. -/
def Within (t : Table) : Plan → Plan → Prop := ReflTransGen t.Part

theorem part_item {items : Plan} (h : t.shape p = .array items) : t.Part items p := by
  rw [Part, h]
  exact .item

theorem part_property {o : ObjectPlan} (h : t.shape p = .object o) {q : PropertyPlan}
    (hq : q ∈ o.properties) : t.Part q.plan p := by
  rw [Part, h]
  exact .property hq

theorem part_additional {o : ObjectPlan} (h : t.shape p = .object o) {a : Plan}
    (ha : o.additional = some a) : t.Part a p := by
  rw [Part, h]
  exact .additional ha

theorem part_variant {c : ChoicesPlan} (h : t.shape p = .choices c) {w : VariantPlan}
    (hw : w ∈ c.variants) : t.Part w.plan p := by
  rw [Part, h]
  exact .variant hw

/-- Each object that the plan leads to has properties of distinct names. `Registry.UniqueProperties`
gives it, see `uniqueNames_of_type`. -/
def UniqueNames (t : Table) (p : Plan) : Prop :=
  ∀ q o, t.Within q p → t.shape q = .object o → (o.properties.map (·.name)).Nodup

theorem UniqueNames.part (h : t.UniqueNames p) (hq : t.Part q p) : t.UniqueNames q :=
  fun q' o hq' => h q' o (hq'.tail hq)

theorem UniqueNames.nodup (h : t.UniqueNames p) {o : ObjectPlan} (ho : t.shape p = .object o) :
    (o.properties.map (·.name)).Nodup :=
  h p o .refl ho

/-- Each enumeration that the plan leads to has fewer members than there are codes for them in
`EnumValue`. -/
def SmallEnums (t : Table) (p : Plan) : Prop :=
  ∀ q e, t.Within q p → t.shape q = .enumeration e → e.members.length < 0xffffffff

theorem SmallEnums.part (h : t.SmallEnums p) (hq : t.Part q p) : t.SmallEnums q :=
  fun q' e hq' => h q' e (hq'.tail hq)

theorem SmallEnums.length_lt (h : t.SmallEnums p) {e : EnumPlan} (he : t.shape p = .enumeration e) :
    e.members.length < 0xffffffff :=
  h p e .refl he

/-- Each object that the plan leads to takes any extra property if it takes one. -/
def Untyped (t : Table) (p : Plan) : Prop :=
  ∀ q o a, t.Within q p → t.shape q = .object o → o.additional = some a → t.shape a = .any

theorem Untyped.part (h : t.Untyped p) (hq : t.Part q p) : t.Untyped q :=
  fun q' o a hq' => h q' o a (hq'.tail hq)

theorem Untyped.shape_eq (h : t.Untyped p) {o : ObjectPlan} (ho : t.shape p = .object o) {a : Plan}
    (ha : o.additional = some a) : t.shape a = .any :=
  h p o a .refl ho ha

section Closed

variable {S : Plan → Prop} (hany : S (.inline .any)) (hentry : ∀ e ∈ t.entries, S e.plan)

include hany hentry

/-- What holds of the entries of a table holds of the `shape` that their names stand for. -/
theorem shape_of_closed (hp : S p) : S (.inline (t.shape p)) := by
  fun_induction shape t p with
  | case1 => exact hp
  | case2 id ih =>
    refine ih ?_
    rw [plan, planAt]
    split
    · exact hentry _ (List.mem_of_getElem? ‹_›)
    · exact hany

/-- What holds of the entries of a table, and passes on to parts, holds of all plans `Within` a
plan. -/
theorem within_of_closed (hpart : ∀ {q p}, S p → Plan.Part q p → S q) (hp : S p)
    (h : t.Within q p) : S q := by
  induction h using ReflTransGen.head_induction_on with
  | refl => exact hp
  | head hq _ ih => exact hpart (shape_of_closed hany hentry ih) hq

end Closed

end Table

/-! ## Types of a registry -/

/-- A type that stands directly in another one. -/
inductive Schema.Ty.Part : Ty → Ty → Prop
  | item {name : Option String} {t : Ty} {origin : Origin} : Part t ⟨name, .array t, origin⟩
  | property {name : Option String} {ps : Dict Property} {a : Option Ty} {origin : Origin}
      {e : String × Property} (h : e ∈ ps.entries) : Part e.2.type ⟨name, .object ps a, origin⟩
  | additional {name : Option String} {ps : Dict Property} {t : Ty} {origin : Origin} :
      Part t ⟨name, .object ps (some t), origin⟩
  | variant {name : Option String} {ts : List Ty} {t : Ty} {origin : Origin} (h : t ∈ ts) :
      Part t ⟨name, .choices ts, origin⟩

namespace Schema

mutual

/-- A type and all types in it, at any depth: a list of what `Ty.Part` leads to (`Ty.mem_all_iff`).
-/
def Ty.all : Ty → List Ty
  | ⟨name, kind, origin⟩ => ⟨name, kind, origin⟩ :: kindAll kind

def kindAll : Kind Ty → List Ty
  | .object ⟨properties⟩ additional => propertiesAll properties ++ additionalAll additional
  | .array items => items.all
  | .choices variants => variantsAll variants
  | _ => []

def propertiesAll : List (String × PropertyOf Ty) → List Ty
  | [] => []
  | (_, ⟨_, _, type⟩) :: ps => type.all ++ propertiesAll ps

def additionalAll : Option Ty → List Ty
  | none => []
  | some t => t.all

def variantsAll : List Ty → List Ty
  | [] => []
  | t :: ts => t.all ++ variantsAll ts

end

theorem mem_propertiesAll {t : Ty} {ps : List (String × Property)} :
    t ∈ propertiesAll ps ↔ ∃ e ∈ ps, t ∈ e.2.type.all := by
  induction ps with
  | nil => simp [propertiesAll]
  | cons e ps ih => simp [propertiesAll, ih]

theorem mem_variantsAll {t : Ty} {ts : List Ty} : t ∈ variantsAll ts ↔ ∃ u ∈ ts, t ∈ u.all := by
  induction ts with
  | nil => simp [variantsAll]
  | cons u ts ih => simp [variantsAll, ih]

theorem Ty.mem_all_iff_part {t u : Ty} : t ∈ u.all ↔ t = u ∨ ∃ w, Part w u ∧ t ∈ w.all := by
  obtain ⟨name, kind, origin⟩ := u
  rw [Ty.all, List.mem_cons]
  refine or_congr_right ?_
  cases kind with
  | object ps a =>
    rw [kindAll, List.mem_append, mem_propertiesAll]
    constructor
    · rintro (⟨e, he, ht⟩ | ht)
      · exact ⟨e.2.type, .property he, ht⟩
      · cases a with
        | none => simp [additionalAll] at ht
        | some w => exact ⟨w, .additional, ht⟩
    · rintro ⟨w, hw, ht⟩
      cases hw with
      | property he => exact .inl ⟨_, he, ht⟩
      | additional => exact .inr ht
  | array items =>
    rw [kindAll]
    constructor
    · exact fun ht => ⟨items, .item, ht⟩
    · rintro ⟨w, hw, ht⟩
      cases hw
      exact ht
  | choices ts =>
    rw [kindAll, mem_variantsAll]
    constructor
    · rintro ⟨w, hw, ht⟩
      exact ⟨w, .variant hw, ht⟩
    · rintro ⟨w, hw, ht⟩
      cases hw with
      | variant hw => exact ⟨w, hw, ht⟩
  | boolean | integer | int64 | double | string | any | binary | enumeration | function | reference =>
    simp only [kindAll, List.not_mem_nil, false_iff, not_exists, not_and]
    intro w hw
    cases hw

theorem Ty.Part.sizeOf_lt {t u : Ty} (h : Ty.Part t u) : sizeOf t < sizeOf u := by
  cases h with
  | item | additional =>
    simp
    omega
  | @property name ps a origin e he =>
    have := Dict.sizeOf_entry_lt he
    obtain ⟨k, q⟩ := e
    cases q
    simp at this ⊢
    omega
  | variant hm =>
    have := List.sizeOf_lt_of_mem hm
    simp
    omega

theorem Ty.mem_all_iff {t u : Ty} : t ∈ u.all ↔ ReflTransGen Ty.Part t u := by
  rw [Ty.mem_all_iff_part]
  constructor
  · rintro (rfl | ⟨w, hw, ht⟩)
    · exact .refl
    · exact (Ty.mem_all_iff.mp ht).tail hw
  · intro h
    rcases h.cases_tail with rfl | ⟨w, ht, hw⟩
    · exact .inl rfl
    · exact .inr ⟨w, hw, Ty.mem_all_iff.mpr ht⟩
termination_by sizeOf u
decreasing_by all_goals exact Ty.Part.sizeOf_lt hw

end Schema

/-- The names of the properties of an object. -/
def Schema.Kind.propertyNames : Kind Ty → List String
  | .object properties _ => properties.values.map (·.name)
  | _ => []

/-- The type of additional properties of an object. -/
def Schema.Kind.additional? : Kind Ty → Option Ty
  | .object _ additional => additional
  | _ => none

def Schema.Kind.isAny : Kind Ty → Bool
  | .any => true
  | _ => false

/-- The members of an enumeration. -/
def Schema.Kind.members : Kind Ty → List String
  | .enumeration members => members
  | _ => []

/-- The parameters of functions, of their callbacks, and of events. The order is that of
`Codec.callTargets`. -/
def Schema.Namespace.paramLists (ns : Namespace) : List (List Property) :=
  (ns.functions.values.flatMap fun f => f.params :: f.results.toList) ++ ns.events.values.map (·.params)

/-- The types that a namespace declares or uses as they stand; all others stand in one of these. -/
def Schema.Namespace.rootTypes (ns : Namespace) : List Ty :=
  ns.types.values ++ ns.manifest.toList ++ ns.paramLists.flatMap (·.map (·.type))

namespace Registry

variable {r : Registry}

/-- A type that stands anywhere in a namespace, at any depth below its `rootTypes`. -/
def Holds (r : Registry) (t : Ty) : Prop :=
  ∃ ns ∈ r.namespaces, ∃ root ∈ ns.rootTypes, ReflTransGen Ty.Part t root

theorem Holds.part {t u : Ty} (h : r.Holds t) (hu : Ty.Part u t) : r.Holds u := by
  obtain ⟨ns, hns, root, hroot, ht⟩ := h
  exact ⟨ns, hns, root, hroot, ht.head hu⟩

/-- The same as `Holds` for the namespace of the given name. -/
def HoldsIn (r : Registry) (space : String) (t : Ty) : Prop :=
  ∃ ns ∈ r.namespaces, ns.name = space ∧ ∃ root ∈ ns.rootTypes, ReflTransGen Ty.Part t root

theorem HoldsIn.holds {space : String} {t : Ty} (h : r.HoldsIn space t) : r.Holds t := by
  obtain ⟨ns, hns, -, h⟩ := h
  exact ⟨ns, hns, h⟩

theorem HoldsIn.part {space : String} {t u : Ty} (h : r.HoldsIn space t) (hu : Ty.Part u t) :
    r.HoldsIn space u := by
  obtain ⟨ns, hns, hs, root, hroot, ht⟩ := h
  exact ⟨ns, hns, hs, root, hroot, ht.head hu⟩

theorem namespaces_of_ofList {namespaces : List Namespace} (h : ofList namespaces = .ok r) :
    r.namespaces = namespaces := by
  unfold ofList at h
  split at h
  · cases h
  · cases h
    rfl

/-- The properties of every object in the registry have distinct names. -/
def UniqueProperties (r : Registry) : Prop := ∀ t, r.Holds t → t.kind.propertyNames.Nodup

/-- The parameters of functions and events have distinct names, too, besides `UniqueProperties`. -/
structure UniqueNames (r : Registry) : Prop where
  properties : r.UniqueProperties
  params : ∀ ns ∈ r.namespaces, ∀ ps ∈ ns.paramLists, (ps.map (·.name)).Nodup

/-- Enumerations have fewer members than there are codes for them. -/
def SmallEnums (r : Registry) : Prop := ∀ t, r.Holds t → t.kind.members.length < 0xffffffff

/-- Objects take any additional property, or none. -/
def Untyped (r : Registry) : Prop := ∀ t, r.Holds t → t.kind.additional?.all (·.kind.isAny) = true

/-- All types of a registry, as a list, which makes what is asked of them decidable. -/
def types (r : Registry) : List Ty := r.namespaces.flatMap fun ns => ns.rootTypes.flatMap Ty.all

theorem mem_types_iff {t : Ty} : t ∈ r.types ↔ r.Holds t := by
  simp only [types, List.mem_flatMap, Ty.mem_all_iff]
  rfl

instance (r : Registry) : Decidable r.UniqueNames :=
  decidable_of_iff
    ((∀ t ∈ r.types, t.kind.propertyNames.Nodup) ∧
      ∀ ns ∈ r.namespaces, ∀ ps ∈ ns.paramLists, (ps.map (fun q : Property => q.name)).Nodup)
    ⟨fun h => ⟨fun t ht => h.1 t (mem_types_iff.mpr ht), h.2⟩,
      fun h => ⟨fun t ht => h.properties t (mem_types_iff.mp ht), h.params⟩⟩

instance (r : Registry) : Decidable r.SmallEnums :=
  decidable_of_iff (∀ t ∈ r.types, t.kind.members.length < 0xffffffff)
    ⟨fun h t ht => h t (mem_types_iff.mpr ht), fun h t ht => h t (mem_types_iff.mp ht)⟩

instance (r : Registry) : Decidable r.Untyped :=
  decidable_of_iff (∀ t ∈ r.types, t.kind.additional?.all (·.kind.isAny) = true)
    ⟨fun h t ht => h t (mem_types_iff.mpr ht), fun h t ht => h t (mem_types_iff.mp ht)⟩

theorem holdsIn_of_type {ns : Namespace} (hns : ns ∈ r.namespaces) {e : String × Ty}
    (he : e ∈ ns.types.entries) : r.HoldsIn ns.name e.2 := by
  refine ⟨ns, hns, rfl, e.2, List.mem_append_left _ (List.mem_append_left _ ?_), .refl⟩
  exact List.mem_map.mpr ⟨e, he, rfl⟩

theorem holdsIn_of_manifest {ns : Namespace} (hns : ns ∈ r.namespaces) {t : Ty}
    (ht : ns.manifest = some t) : r.HoldsIn ns.name t :=
  ⟨ns, hns, rfl, t, by simp [Namespace.rootTypes, ht], .refl⟩

theorem holdsIn_of_param {ns : Namespace} (hns : ns ∈ r.namespaces) {ps : List Property}
    (hps : ps ∈ ns.paramLists) {q : Property} (hq : q ∈ ps) : r.HoldsIn ns.name q.type := by
  refine ⟨ns, hns, rfl, q.type, List.mem_append_right _ ?_, .refl⟩
  exact List.mem_flatMap.mpr ⟨ps, hps, List.mem_map.mpr ⟨q, hq, rfl⟩⟩

theorem holdsIn_of_declaration {d : Declared} (h : d ∈ r.declarations) : r.HoldsIn d.space d.type := by
  obtain ⟨ns, hns, hs, he⟩ := mem_declarations_iff.mp h
  rw [← hs]
  exact holdsIn_of_type hns he

end Registry

/-! ## Definitions that are found -/

namespace Codec

variable {r : Registry} {ns : Namespace}

/-- Each of the `definitions` is a declared type, or the root of the manifest. -/
theorem definition_cases (hns : ns ∈ r.namespaces) :
    ∀ d ∈ definitions r ns, (∃ d' ∈ r.declarations, d = .ofDeclared d') ∨
      ∃ t, ns.manifest = some t ∧ d = manifestDefinition ns.name t := by
  refine Discovery.forall_mem_finish (fun _ _ _ hd => .inl (Registry.exists_of_destinations hd))
    (Discovery.forall_found_enterAll (by simp) fun d hd => ?_)
  simp only [roots, List.mem_append, List.mem_map, Option.mem_toList] at hd
  rcases hd with (⟨e, he, rfl⟩ | ⟨t, ht, rfl⟩) | hd
  · exact .inl ⟨⟨ns.name, e.1, e.2⟩, Registry.mem_declarations_iff.mpr ⟨ns, hns, rfl, he⟩, rfl⟩
  · exact .inr ⟨t, ht, rfl⟩
  · exact .inl (Registry.exists_of_destinations hd)

theorem holdsIn_of_definitions (hns : ns ∈ r.namespaces) {d : Definition} (hd : d ∈ definitions r ns) :
    r.HoldsIn d.space d.type := by
  rcases definition_cases hns d hd with ⟨d', hd', rfl⟩ | ⟨t, ht, rfl⟩
  · exact Registry.holdsIn_of_declaration hd'
  · exact Registry.holdsIn_of_manifest hns ht

/-- The entries of the declared types, each found by `entryOf`. -/
def typeIds (r : Registry) (ns : Namespace) (t : Table) : List Nat :=
  ns.types.keys.map fun name => entryOf t ((definitions r ns).map (·.key)) (qualify ns.name name)

/-- What `generate` puts into a codec of a namespace of its registry. The marks of the manifest, if
there is one, add to the operations. -/
structure Of (r : Registry) (ns : Namespace) (c : Codec) : Prop where
  mem : ns ∈ r.namespaces
  types : c.types = ⟨ns.types.keys.zip (typeIds r ns c.table)⟩
  operations : ∃ os marks, origins r ns = .ok os ∧ (ns.manifest = none → marks = []) ∧
    c.operations = operationsOf c.table.size ((typeIds r ns c.table).zip (os.map .ofOrigin) ++ marks)
  entries : c.table.entries = (definitions r ns).map (ofDefinition r ((definitions r ns).map (·.key)))
  manifest : c.manifest = ns.manifest.map fun _ =>
    ((definitions r ns).map (·.key)).idxOf (manifestKey ns.name)
  functions : c.functions = ⟨ns.functions.entries.map fun (name, f) =>
    (name, functionPlan r ((definitions r ns).map (·.key)) ns.name name f)⟩
  events : c.events = ⟨ns.events.entries.map fun (name, e) =>
    (name, eventPlan r ((definitions r ns).map (·.key)) ns.name name e)⟩

theorem entries_of_ofEntries {entries : List Entry} {t : Table} (h : Table.ofEntries entries = .ok t) :
    t.entries = entries := by
  unfold Table.ofEntries at h
  split at h
  · cases h
  · split at h
    · cases h
    · cases h
      rfl

theorem bind_eq_ok_iff {ε α β : Type} {x : Except ε α} {f : α → Except ε β} {b : β} :
    (x >>= f) = .ok b ↔ ∃ a, x = .ok a ∧ f a = .ok b := by
  cases x <;> simp [bind, Except.bind]

theorem mapError_eq_ok_iff {ε ε' α : Type} {f : ε → ε'} {x : Except ε α} {a : α} :
    x.mapError f = .ok a ↔ x = .ok a := by
  cases x <;> simp [Except.mapError]

theorem exists_of_isOk {ε α : Type} {x : Except ε α} (h : x.isOk = true) : ∃ a, x = .ok a := by
  cases x with
  | error e => cases h
  | ok a => exact ⟨a, rfl⟩

/-- Codecs are generated from validated registries only, and are the codec `Of` the namespace found.
-/
theorem exists_of_generate {settings : Settings} {name : String} {c : Codec}
    (h : generate r settings name = .ok c) :
    ∃ ns, r.validate = .ok () ∧ r.namespace? name = some ns ∧ Of r ns c := by
  simp only [generate, bind_eq_ok_iff] at h
  obtain ⟨⟨⟩, hv, ns, hns, os, hos, -, -, table, htable, h⟩ := h
  have hfound : r.namespace? name = some ns := by
    unfold Registry.getNamespace at hns
    split at hns
    · cases hns
      assumption
    · cases hns
  have hmem := Registry.mem_of_namespace? hfound
  refine ⟨ns, hv, hfound, ?_⟩
  split at h
  · obtain ⟨marks, hmarks, h⟩ := bind_eq_ok_iff.mp h
    cases hmarks
    cases h
    exact ⟨hmem, rfl, ⟨os, [], hos, fun _ => rfl, rfl⟩, entries_of_ofEntries htable, rfl, rfl, rfl⟩
  · rename_i root hroot
    obtain ⟨marks, -, h⟩ := bind_eq_ok_iff.mp h
    cases h
    have hmanifest : ns.manifest = none → marks = [] := by
      intro hnone
      rw [hnone] at hroot
      cases hroot
    exact ⟨hmem, rfl, ⟨os, marks, hos, hmanifest, rfl⟩, entries_of_ofEntries htable, rfl, rfl, rfl⟩

theorem of_generate {settings : Settings} {name : String} {c : Codec}
    (h : generate r settings name = .ok c) : ∃ ns, Of r ns c := by
  obtain ⟨ns, -, -, hc⟩ := exists_of_generate h
  exact ⟨ns, hc⟩

end Codec

/-! ## Plans and the types that they come from -/

namespace Plan

variable {r : Registry} {keys : List String} {space owner : String}

theorem map_name_ofProperties (ps : List (String × Property)) :
    (ofProperties r keys space owner ps).map (·.name) = ps.map (·.2.name) := by
  induction ps with
  | nil => rfl
  | cons e ps ih => simp only [ofProperties, List.map_cons, ih]

theorem exists_of_mem_ofProperties {ps : List (String × Property)} {q : PropertyPlan}
    (h : q ∈ ofProperties r keys space owner ps) :
    ∃ e ∈ ps, ∃ owner', q.plan = ofType r keys space owner' e.2.type := by
  induction ps with
  | nil => simp [ofProperties] at h
  | cons e ps ih =>
    simp only [ofProperties, List.mem_cons] at h
    rcases h with rfl | h
    · exact ⟨e, List.mem_cons_self, _, rfl⟩
    · obtain ⟨e', he', h'⟩ := ih h
      exact ⟨e', List.mem_cons_of_mem _ he', h'⟩

theorem exists_of_mem_ofVariants {ts : List Ty} {w : VariantPlan}
    (h : w ∈ ofVariants r keys space owner ts) :
    ∃ t ∈ ts, w.plan = ofType r keys space owner t := by
  induction ts with
  | nil => simp [ofVariants] at h
  | cons t ts ih =>
    simp only [ofVariants, List.mem_cons] at h
    rcases h with rfl | h
    · exact ⟨t, List.mem_cons_self, rfl⟩
    · obtain ⟨t', ht', h'⟩ := ih h
      exact ⟨t', List.mem_cons_of_mem _ ht', h'⟩

theorem ofReference_cases {motive : Plan → Prop} (named : ∀ id, motive (.named id))
    (any : motive (.inline .any)) (r : Registry) (keys : List String) (space target : String) :
    motive (ofReference r keys space target) := by
  unfold ofReference
  split
  · exact named _
  · exact any

/-- What stands in the plan of a type is the plan of what stands in the type, so `ofType` commutes
with `Part`. -/
theorem exists_of_part_ofType {t : Ty} {q : Plan} (h : Part q (ofType r keys space owner t)) :
    ∃ u owner', Ty.Part u t ∧ q = ofType r keys space owner' u := by
  obtain ⟨name, kind, origin⟩ := t
  cases kind with
  | object ps a =>
    simp only [ofType, ofKind] at h
    cases h with
    | property h =>
      obtain ⟨e, he, owner', h⟩ := exists_of_mem_ofProperties h
      exact ⟨e.2.type, owner', .property he, h⟩
    | additional h =>
      cases a with
      | none => cases h
      | some t =>
        cases h
        exact ⟨t, _, .additional, rfl⟩
  | array items =>
    simp only [ofType, ofKind] at h
    cases h
    exact ⟨items, _, .item, rfl⟩
  | choices ts =>
    simp only [ofType, ofKind] at h
    cases h with
    | variant h =>
      obtain ⟨t, ht, h⟩ := exists_of_mem_ofVariants h
      exact ⟨t, _, .variant ht, h⟩
  | reference target =>
    simp only [ofType, ofKind] at h
    revert h
    exact ofReference_cases (motive := fun p => Part q p → _) nofun nofun r keys space target
  | boolean | integer | int64 | double | string | any | binary | enumeration | function =>
    simp only [ofType, ofKind] at h
    cases h

theorem exists_of_part_ofParams {ps : List Property} {q : Plan}
    (h : Part q (.inline (.object (ofParams r keys space owner ps)))) :
    ∃ a ∈ ps, ∃ owner', q = ofType r keys space owner' a.type := by
  cases h with
  | property h =>
    obtain ⟨e, he, owner', h⟩ := exists_of_mem_ofProperties h
    obtain ⟨a, ha, rfl⟩ := List.mem_map.mp he
    exact ⟨a, ha, owner', h⟩
  | additional h => cases h

end Plan

namespace Registry

variable {r : Registry} {keys : List String}

/-- A plan that `ofType` compiles from a type of the registry. -/
inductive Sourced (r : Registry) (keys : List String) : Plan → Prop
  | named (id : Nat) : Sourced r keys (.named id)
  | any : Sourced r keys (.inline .any)
  | type {space owner : String} {t : Ty} (h : r.Holds t) : Sourced r keys (ofType r keys space owner t)

/-- A plan that `ofParams` compiles from the parameters of a function or event. -/
inductive SourcedParams (r : Registry) (keys : List String) : ObjectPlan → Prop
  | intro {space owner : String} {ns : Namespace} {ps : List Property} (hns : ns ∈ r.namespaces)
      (h : ps ∈ ns.paramLists) : SourcedParams r keys (ofParams r keys space owner ps)

theorem Sourced.part {p q : Plan} (h : Sourced r keys p) (hq : Plan.Part q p) : Sourced r keys q := by
  cases h with
  | named id => cases hq
  | any => cases hq
  | type ht =>
    obtain ⟨u, owner, hu, rfl⟩ := exists_of_part_ofType hq
    exact .type (ht.part hu)

theorem SourcedParams.part {o : ObjectPlan} {q : Plan} (h : SourcedParams r keys o)
    (hq : Plan.Part q (.inline (.object o))) : Sourced r keys q := by
  obtain ⟨hns, hps⟩ := h
  obtain ⟨a, ha, owner, rfl⟩ := exists_of_part_ofParams hq
  exact .type (holdsIn_of_param hns hps ha).holds

theorem SourcedParams.nodup (hr : r.UniqueNames) {o : ObjectPlan} (h : SourcedParams r keys o) :
    (o.properties.map (·.name)).Nodup := by
  obtain ⟨hns, hps⟩ := h
  rw [ofParams, map_name_ofProperties, List.map_map]
  exact hr.params _ hns _ hps

theorem SourcedParams.additional_eq_none {o : ObjectPlan} (h : SourcedParams r keys o) :
    o.additional = none := by
  cases h
  rfl

/-- The plan of an object comes from an object type. -/
theorem Sourced.exists_of_object {o : ObjectPlan} (h : Sourced r keys (.inline (.object o))) :
    ∃ space owner name ps a origin, r.Holds ⟨name, .object ps a, origin⟩ ∧
      .inline (.object o) = ofType r keys space owner ⟨name, .object ps a, origin⟩ := by
  generalize hp : Plan.inline (.object o) = p at h
  cases h with
  | named | any => cases hp
  | @type space owner t ht =>
    obtain ⟨name, kind, origin⟩ := t
    cases kind with
    | object ps a => exact ⟨space, owner, name, ps, a, origin, ht, rfl⟩
    | reference target =>
      simp only [ofType, ofKind] at hp
      revert hp
      exact ofReference_cases (motive := fun p => _ = p → _) nofun nofun r keys space target
    | boolean | integer | int64 | double | string | any | binary | enumeration | function | array
    | choices =>
      simp only [ofType, ofKind] at hp
      cases hp

theorem Sourced.nodup (hr : r.UniqueProperties) {o : ObjectPlan}
    (h : Sourced r keys (.inline (.object o))) : (o.properties.map (·.name)).Nodup := by
  obtain ⟨space, owner, name, ps, a, origin, ht, hp⟩ := h.exists_of_object
  simp only [ofType, ofKind, Plan.inline.injEq, ShapeOf.object.injEq] at hp
  have := hr _ ht
  rw [Kind.propertyNames, Dict.values, List.map_map] at this
  rw [hp, map_name_ofProperties]
  exact this

theorem Sourced.additional_eq_any (hr : r.Untyped) {o : ObjectPlan}
    (h : Sourced r keys (.inline (.object o))) {a : Plan} (ha : o.additional = some a) :
    a = .inline .any := by
  obtain ⟨space, owner, name, ps, b, origin, ht, hp⟩ := h.exists_of_object
  simp only [ofType, ofKind, Plan.inline.injEq, ShapeOf.object.injEq] at hp
  rw [hp] at ha
  cases b with
  | none => cases ha
  | some b =>
    obtain ⟨name', kind, origin'⟩ := b
    have hany := hr _ ht
    cases kind with
    | any =>
      cases ha
      simp only [ofType, ofKind]
    | _ => cases hany

theorem Sourced.length_lt (hr : r.SmallEnums) {e : EnumPlan}
    (h : Sourced r keys (.inline (.enumeration e))) : e.members.length < 0xffffffff := by
  generalize hp : Plan.inline (.enumeration e) = p at h
  cases h with
  | named | any => cases hp
  | @type space owner t ht =>
    obtain ⟨name, kind, origin⟩ := t
    cases kind with
    | enumeration members =>
      simp only [ofType, ofKind, Plan.inline.injEq, ShapeOf.enumeration.injEq] at hp
      subst hp
      exact hr _ ht
    | reference target =>
      simp only [ofType, ofKind] at hp
      revert hp
      exact ofReference_cases (motive := fun p => _ = p → _) nofun nofun r keys space target
    | boolean | integer | int64 | double | string | any | binary | object | function | array
    | choices =>
      simp only [ofType, ofKind] at hp
      cases hp

end Registry

/-! ## Plans of a codec -/

namespace Codec

variable {r : Registry} {settings : Settings} {name : String} {c : Codec} {p q : Plan}

/-- What a codec is used with: the entries of its table, the parameters of its functions and of
their callbacks, and those of its events. -/
inductive Root (c : Codec) : Plan → Prop
  | entry (id : Nat) : Root c (.named id)
  | params {f : FunctionPlan} (h : f ∈ c.functions.values) : Root c (.inline (.object f.params))
  | results {f : FunctionPlan} (h : f ∈ c.functions.values) {o : ObjectPlan} (ho : f.results = some o) :
      Root c (.inline (.object o))
  | event {e : EventPlan} (h : e ∈ c.events.values) : Root c (.inline (.object e.params))

/-- A plan of a codec: what a `Root` leads to, at any depth. -/
def Mentions (c : Codec) (q : Plan) : Prop := ∃ p, c.Root p ∧ c.table.Within q p

theorem Root.mentions (h : c.Root p) : c.Mentions p := ⟨p, h, .refl⟩

/-- A plan of a type: what the entries of the table lead to, and the types of parameters. Unlike
`Mentions` it leaves out parameter lists themselves. -/
def MentionsType (c : Codec) (q : Plan) : Prop :=
  (∃ id, c.table.Within q (.named id)) ∨ ∃ p root, c.Root root ∧ c.table.Part p root ∧ c.table.Within q p

theorem MentionsType.mentions (h : c.MentionsType p) : c.Mentions p := by
  rcases h with ⟨id, h⟩ | ⟨q, root, hroot, hq, h⟩
  · exact ⟨_, .entry id, h⟩
  · exact ⟨root, hroot, h.tail hq⟩

theorem mentionsType_entry (c : Codec) (id : Nat) : c.MentionsType (.named id) := .inl ⟨id, .refl⟩

theorem Of.exists_function {ns : Namespace} (hc : Of r ns c) {f : FunctionPlan}
    (hf : f ∈ c.functions.values) :
    ∃ e ∈ ns.functions.entries, f = functionPlan r ((definitions r ns).map (·.key)) ns.name e.1 e.2 := by
  rw [hc.functions] at hf
  obtain ⟨e', he', rfl⟩ := List.mem_map.mp hf
  obtain ⟨e, he, rfl⟩ := List.mem_map.mp he'
  exact ⟨e, he, rfl⟩

theorem Of.exists_event {ns : Namespace} (hc : Of r ns c) {f : EventPlan} (hf : f ∈ c.events.values) :
    ∃ e ∈ ns.events.entries, f = eventPlan r ((definitions r ns).map (·.key)) ns.name e.1 e.2 := by
  rw [hc.events] at hf
  obtain ⟨e', he', rfl⟩ := List.mem_map.mp hf
  obtain ⟨e, he, rfl⟩ := List.mem_map.mp he'
  exact ⟨e, he, rfl⟩

/-- What a codec is used with is an entry, or comes from one of the `paramLists` of its namespace.
-/
theorem Of.root_cases {ns : Namespace} (hc : Of r ns c) (h : c.Root p) :
    (∃ id, p = .named id) ∨ ∃ owner, ∃ ps ∈ ns.paramLists,
      p = .inline (.object (ofParams r ((definitions r ns).map (·.key)) ns.name owner ps)) := by
  cases h with
  | entry id => exact .inl ⟨id, rfl⟩
  | params hf =>
    obtain ⟨e, he, rfl⟩ := hc.exists_function hf
    refine .inr ⟨_, e.2.params, List.mem_append_left _ (List.mem_flatMap.mpr ⟨e.2, ?_, ?_⟩), rfl⟩
    · exact List.mem_map.mpr ⟨e, he, rfl⟩
    · exact List.mem_cons_self
  | results hf ho =>
    obtain ⟨e, he, rfl⟩ := hc.exists_function hf
    obtain ⟨ps, hps, rfl⟩ := Option.map_eq_some_iff.mp ho
    refine .inr ⟨_, ps, List.mem_append_left _ (List.mem_flatMap.mpr ⟨e.2, ?_, ?_⟩), rfl⟩
    · exact List.mem_map.mpr ⟨e, he, rfl⟩
    · simp [hps]
  | event hf =>
    obtain ⟨e, he, rfl⟩ := hc.exists_event hf
    refine .inr ⟨_, e.2.params, List.mem_append_right _ (List.mem_map.mpr ⟨e.2, ?_, rfl⟩), rfl⟩
    exact List.mem_map.mpr ⟨e, he, rfl⟩

theorem Of.sourced_root {ns : Namespace} (hc : Of r ns c) (h : c.Root p) :
    (∃ id, p = .named id) ∨
      ∃ o, r.SourcedParams ((definitions r ns).map (·.key)) o ∧ p = .inline (.object o) := by
  rcases hc.root_cases h with hid | ⟨owner, ps, hps, rfl⟩
  · exact .inl hid
  · exact .inr ⟨_, .intro hc.mem hps, rfl⟩

theorem Of.sourced_entry {ns : Namespace} (hc : Of r ns c) :
    ∀ e ∈ c.table.entries, r.Sourced ((definitions r ns).map (·.key)) e.plan := by
  intro e he
  rw [hc.entries] at he
  obtain ⟨d, hd, rfl⟩ := List.mem_map.mp he
  exact .type (holdsIn_of_definitions hc.mem hd).holds

theorem Of.sourced_within {ns : Namespace} (hc : Of r ns c)
    (hp : r.Sourced ((definitions r ns).map (·.key)) p) (h : c.table.Within q p) :
    r.Sourced ((definitions r ns).map (·.key)) (.inline (c.table.shape q)) := by
  refine Table.shape_of_closed .any hc.sourced_entry ?_
  exact Table.within_of_closed .any hc.sourced_entry Registry.Sourced.part hp h

theorem Of.sourced_part {ns : Namespace} (hc : Of r ns c) (h : c.Root p) (hq : c.table.Part q p) :
    r.Sourced ((definitions r ns).map (·.key)) q := by
  rcases hc.sourced_root h with ⟨id, rfl⟩ | ⟨o, ho, rfl⟩
  · exact (hc.sourced_within (.named id) .refl).part hq
  · rw [Table.Part, Table.shape] at hq
    exact ho.part hq

/-- Plans of types come from types, in the sense of `Sourced`. -/
theorem Of.sourced_type {ns : Namespace} (hc : Of r ns c) (hp : c.MentionsType p)
    (h : c.table.Within q p) :
    r.Sourced ((definitions r ns).map (·.key)) (.inline (c.table.shape q)) := by
  rcases hp with ⟨id, hp⟩ | ⟨p', root, hroot, hpart, hp⟩
  · exact hc.sourced_within (.named id) (h.trans hp)
  · exact hc.sourced_within (hc.sourced_part hroot hpart) (h.trans hp)

/-- A plan that is not `Sourced` from a type is a parameter list. -/
theorem Of.sourced_shape {ns : Namespace} (hc : Of r ns c) (hp : c.Mentions p)
    (h : c.table.Within q p) :
    r.Sourced ((definitions r ns).map (·.key)) (.inline (c.table.shape q)) ∨
      ∃ o, r.SourcedParams ((definitions r ns).map (·.key)) o ∧ c.table.shape q = .object o := by
  obtain ⟨root, hroot, hp⟩ := hp
  rcases (h.trans hp).cases_tail with rfl | ⟨p', h', hpart⟩
  · rcases hc.sourced_root hroot with ⟨id, rfl⟩ | ⟨o, ho, rfl⟩
    · exact .inl (hc.sourced_within (.named id) .refl)
    · exact .inr ⟨o, ho, by rw [Table.shape]⟩
  · exact .inl (hc.sourced_within (hc.sourced_part hroot hpart) h')

theorem uniqueNames_of_type (h : generate r settings name = .ok c) (hr : r.UniqueProperties)
    (hp : c.MentionsType p) : c.table.UniqueNames p := by
  obtain ⟨ns, hc⟩ := of_generate h
  intro q o hq ho
  have hs := hc.sourced_type hp hq
  rw [ho] at hs
  exact hs.nodup hr

theorem uniqueNames_of_generate (h : generate r settings name = .ok c) (hr : r.UniqueNames)
    (hp : c.Mentions p) : c.table.UniqueNames p := by
  obtain ⟨ns, hc⟩ := of_generate h
  intro q o hq ho
  rcases hc.sourced_shape hp hq with hs | ⟨o', ho', hs⟩
  · rw [ho] at hs
    exact hs.nodup hr.properties
  · rw [ho] at hs
    cases hs
    exact ho'.nodup hr

theorem smallEnums_of_generate (h : generate r settings name = .ok c) (hr : r.SmallEnums)
    (hp : c.Mentions p) : c.table.SmallEnums p := by
  obtain ⟨ns, hc⟩ := of_generate h
  intro q e hq he
  rcases hc.sourced_shape hp hq with hs | ⟨o, -, hs⟩
  · rw [he] at hs
    exact hs.length_lt hr
  · rw [he] at hs
    cases hs

theorem untyped_of_generate (h : generate r settings name = .ok c) (hr : r.Untyped)
    (hp : c.Mentions p) : c.table.Untyped p := by
  obtain ⟨ns, hc⟩ := of_generate h
  intro q o a hq ho ha
  rcases hc.sourced_shape hp hq with hs | ⟨o', ho', hs⟩
  · rw [ho] at hs
    rw [hs.additional_eq_any hr ha, Table.shape]
  · rw [ho] at hs
    cases hs
    rw [ho'.additional_eq_none] at ha
    cases ha

end Codec

/-! ## A shop

A small registry, which is generated from without an error. -/

namespace Shop

def size : Ty := (Ty.ofKind (.enumeration ["small", "large"])).named "Size"

/-- The price is whole, and comes in 32 bits or in 64. -/
def price : Ty :=
  ((Ty.ofKind (.choices [Ty.ofKind .integer, Ty.ofKind .int64])).named "Price").withOrigin .jsonAndClient

/-- An item may have properties beside the declared ones. -/
def item : Ty :=
  (((Ty.object [⟨"name", false, Ty.ofKind .string⟩, ⟨"size", true, Ty.ofKind (.reference "Size")⟩,
    ⟨"price", false, Ty.ofKind (.reference "Price")⟩]).withAdditional (Ty.ofKind .any)).named
      "Item").withOrigin .jsonAndClient

/-- Finds items like a given one. -/
def find : FunctionDecl where
  name := "find"
  params := [⟨"item", false, Ty.ofKind (.reference "Item")⟩, ⟨"limit", true, Ty.ofKind .integer⟩]
  results := some [⟨"items", false, Ty.ofKind (.array (Ty.ofKind (.reference "Item")))⟩]

def shop : Namespace :=
  ((((Namespace.empty "shop").withType size).withType item).withType price).withFunction find

def registry : Registry where
  namespaces := [shop]
  distinct := by decide

theorem uniqueNames : registry.UniqueNames := by decide

theorem smallEnums : registry.SmallEnums := by decide

theorem untyped : registry.Untyped := by decide

theorem exists_codec : ∃ c, Codec.generate registry {} "shop" = .ok c :=
  Codec.exists_of_isOk (by decide +kernel)

/-- Choices between an integer of 32 bits and one of 64. -/
def isPrice : Plan → Bool
  | .inline (.choices ⟨_, [⟨_, .inline .integer⟩, ⟨_, .inline .int64⟩]⟩) => true
  | _ => false

/-- The price is the third entry of the table. -/
theorem shape_price {c : Codec} (h : Codec.generate registry {} "shop" = .ok c) :
    ∃ name label label', c.table.shape (.named 2) =
      .choices ⟨name, [⟨label, .inline .integer⟩, ⟨label', .inline .int64⟩]⟩ := by
  have hp : (Codec.generate registry {} "shop").toOption.map (fun c => isPrice (c.table.plan 2)) =
      some true := by decide +kernel
  rw [h] at hp
  have hp : isPrice (c.table.plan 2) = true := Option.some.inj hp
  rw [Table.shape]
  unfold isPrice at hp
  split at hp
  · rename_i name label label' hplan
    refine ⟨name, label, label', ?_⟩
    rw [hplan, Table.shape]
  · cases hp

end Shop

end Interchange
