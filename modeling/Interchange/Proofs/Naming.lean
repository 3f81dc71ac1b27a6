import Interchange.Codec.Document
import Interchange.Proofs.Documents

/-! # Names after loading

Filling in names (`Namespace.assignNames`) is one case of giving new labels to a namespace
(`Namespace.relabel`), and so is leaving them blank (`Namespace.blank`). Of two such passes only the
second one shows (`Namespace.relabel_relabel`), so names are filled in once for all and nothing but
names is changed (`Namespace.Filled`).

Names that are filled in are distinct: `uniqueNames_of_keyed` concludes `Registry.UniqueNames` of
every registry of loaded namespaces.
-/

namespace Interchange.Schema

open Relation (ReflTransGen)

variable {f g : String → String}

/-! ## Labels in types -/

/-- Labels the properties of a kind by their keys. The types in it are changed on their own, by
`change`. -/
def Kind.relabel (f : String → String) (change : Ty → Ty) : Kind Ty → Kind Ty
  | .object ps a =>
    .object ⟨ps.entries.map fun e => (e.1, ⟨f e.1, e.2.optional, change e.2.type⟩)⟩ (a.map change)
  | .array t => .array (change t)
  | .choices ts => .choices (ts.map change)
  | k => k

mutual

/-- Labels the properties in a type by their keys, at any depth. `Ty.nameProperties` is the case of
the identity. -/
def Ty.label (f : String → String) : Ty → Ty
  | ⟨name, kind, origin⟩ => ⟨name, labelKind f kind, origin⟩

def labelKind (f : String → String) : Kind Ty → Kind Ty
  | .object ⟨ps⟩ a => .object ⟨labelEntries f ps⟩ (labelAdditional f a)
  | .array t => .array (t.label f)
  | .choices ts => .choices (labelVariants f ts)
  | k => k

def labelEntries (f : String → String) : List (String × PropertyOf Ty) → List (String × PropertyOf Ty)
  | [] => []
  | (key, ⟨_, optional, type⟩) :: es => (key, ⟨f key, optional, type.label f⟩) :: labelEntries f es

def labelAdditional (f : String → String) : Option Ty → Option Ty
  | none => none
  | some t => some (t.label f)

def labelVariants (f : String → String) : List Ty → List Ty
  | [] => []
  | t :: ts => t.label f :: labelVariants f ts

end

/-- Labels the properties in a type as `Ty.label` does, and changes the name of the type itself. -/
def Ty.relabel (f : String → String) (rename : Option String → Option String) (t : Ty) : Ty :=
  ⟨rename t.name, t.kind.relabel f (Ty.label f), t.origin⟩

theorem labelEntries_eq (es : List (String × Property)) :
    labelEntries f es = es.map fun e => (e.1, ⟨f e.1, e.2.optional, e.2.type.label f⟩) := by
  induction es with
  | nil => rfl
  | cons e es ih => rw [labelEntries, ih, List.map_cons]

theorem labelVariants_eq (ts : List Ty) : labelVariants f ts = ts.map (Ty.label f) := by
  induction ts with
  | nil => rfl
  | cons t ts ih => rw [labelVariants, ih, List.map_cons]

theorem Ty.label_eq (t : Ty) : t.label f = t.relabel f id := by
  obtain ⟨name, kind, origin⟩ := t
  rw [label, relabel]
  cases kind with
  | object ps a => rw [labelKind, labelEntries_eq]; cases a <;> rfl
  | choices ts => rw [labelKind, labelVariants_eq]; rfl
  | boolean | integer | int64 | double | string | any | binary | array | enumeration | function
  | reference => rfl

theorem nameEntries_eq (es : List (String × Property)) :
    nameEntries es = es.map fun e => (e.1, ⟨e.1, e.2.optional, e.2.type.nameProperties⟩) := by
  induction es with
  | nil => rfl
  | cons e es ih => rw [nameEntries, ih, List.map_cons]

theorem nameVariants_eq (ts : List Ty) : nameVariants ts = ts.map Ty.nameProperties := by
  induction ts with
  | nil => rfl
  | cons t ts ih => rw [nameVariants, ih, List.map_cons]

theorem Ty.nameProperties_eq (t : Ty) :
    t.nameProperties = ⟨t.name, t.kind.relabel id nameProperties, t.origin⟩ := by
  obtain ⟨name, kind, origin⟩ := t
  rw [nameProperties]
  cases kind with
  | object ps a => rw [nameKind, nameEntries_eq]; cases a <;> rfl
  | choices ts => rw [nameKind, nameVariants_eq]; rfl
  | boolean | integer | int64 | double | string | any | binary | array | enumeration | function
  | reference => rfl

/-- What passes from the parts of a type to the type holds of every type. -/
theorem Ty.part_induction {motive : Ty → Prop} (step : ∀ t, (∀ u, Part u t → motive u) → motive t)
    (t : Ty) : motive t :=
  step t fun u _ => part_induction step u
termination_by sizeOf t
decreasing_by exact Part.sizeOf_lt ‹_›

theorem Kind.relabel_congr {t : Ty} {change change' : Ty → Ty}
    (h : ∀ u, Ty.Part u t → change u = change' u) :
    t.kind.relabel f change = t.kind.relabel f change' := by
  obtain ⟨name, kind, origin⟩ := t
  cases kind with
  | object ps a =>
    have hps : ∀ e ∈ ps.entries, change e.2.type = change' e.2.type := fun e he => h _ (.property he)
    have ha : a.map change = a.map change' := by
      cases a with
      | none => rfl
      | some t => exact congrArg some (h t .additional)
    simp only [relabel, ha]
    rw [List.map_congr_left fun e he => by rw [hps e he]]
  | array t => exact congrArg Kind.array (h t .item)
  | choices ts => exact congrArg Kind.choices (List.map_congr_left fun t ht => h t (.variant ht))
  | boolean | integer | int64 | double | string | any | binary | enumeration | function
  | reference => rfl

/-- Of two labels only the second one shows. -/
theorem Kind.relabel_relabel (k : Kind Ty) (change change' : Ty → Ty) :
    (k.relabel g change').relabel f change = k.relabel f (change ∘ change') := by
  cases k with
  | object ps a => simp [relabel]
  | choices ts => simp [relabel]
  | boolean | integer | int64 | double | string | any | binary | array | enumeration | function
  | reference => rfl

theorem Ty.nameProperties_eq_label (t : Ty) : t.nameProperties = t.label id := by
  induction t using Ty.part_induction with
  | step t ih => rw [nameProperties_eq, Kind.relabel_congr ih, label_eq]; rfl

theorem Ty.label_label (t : Ty) : (t.label g).label f = t.label f := by
  induction t using Ty.part_induction with
  | step t ih =>
    have hkind : (t.kind.relabel g (label g)).relabel f (label f) = t.kind.relabel f (label f) := by
      rw [Kind.relabel_relabel]
      exact Kind.relabel_congr ih
    rw [label_eq, label_eq, label_eq, relabel, relabel, hkind]
    rfl

/-! ### Objects under labels -/

theorem Ty.exists_of_part_relabel {t u : Ty} {rename : Option String → Option String}
    (h : Part u (t.relabel f rename)) : ∃ w, Part w t ∧ u = w.label f := by
  obtain ⟨name, kind, origin⟩ := t
  cases kind with
  | object ps a =>
    rw [relabel, Kind.relabel] at h
    generalize hb : a.map (label f) = b at h
    cases h with
    | property he =>
      obtain ⟨e, hmem, rfl⟩ := List.mem_map.mp he
      exact ⟨e.2.type, .property hmem, rfl⟩
    | additional =>
      obtain ⟨w, rfl, rfl⟩ := Option.map_eq_some_iff.mp hb
      exact ⟨w, .additional, rfl⟩
  | array t =>
    cases h
    exact ⟨t, .item, rfl⟩
  | choices ts =>
    cases h with
    | variant hu =>
      obtain ⟨w, hw, rfl⟩ := List.mem_map.mp hu
      exact ⟨w, .variant hw, rfl⟩
  | boolean | integer | int64 | double | string | any | binary | enumeration | function
  | reference => cases h

/-- Labels reach every depth. -/
theorem Ty.exists_of_within_relabel {t u : Ty} {rename : Option String → Option String}
    (h : ReflTransGen Part u (t.relabel f rename)) :
    ∃ w rename', ReflTransGen Part w t ∧ u = w.relabel f rename' := by
  induction h using ReflTransGen.head_induction_on with
  | refl => exact ⟨t, rename, .refl, rfl⟩
  | head hpart _ ih =>
    obtain ⟨w, rename', hw, rfl⟩ := ih
    obtain ⟨v, hv, rfl⟩ := exists_of_part_relabel hpart
    exact ⟨v, id, .head hv hw, v.label_eq⟩

theorem Kind.exists_of_relabel_eq_object {k : Kind Ty} {change : Ty → Ty} {ps : Dict Property}
    {a : Option Ty} (h : k.relabel f change = .object ps a) :
    ∃ qs b, k = .object qs b ∧ ps.keys = qs.keys ∧ ∀ e ∈ ps.entries, e.2.name = f e.1 := by
  cases k with
  | object qs b =>
    cases h
    refine ⟨qs, b, rfl, qs.keys_map_entries _, fun e he => ?_⟩
    obtain ⟨e', -, rfl⟩ := List.mem_map.mp he
    rfl
  | boolean | integer | int64 | double | string | any | binary | array | choices | enumeration
  | function | reference => cases h

/-- In every object of the type, at any depth, a property has its key for a name. So is every type
that `Ty.label` labels by the identity. -/
def Ty.Named (t : Ty) : Prop :=
  ∀ u, ReflTransGen Ty.Part u t → ∀ ps a, u.kind = .object ps a → ∀ e ∈ ps.entries, e.2.name = e.1

theorem Ty.named_relabel (t : Ty) (rename : Option String → Option String) :
    (t.relabel id rename).Named := by
  intro u hu ps a hk
  obtain ⟨w, rename', -, rfl⟩ := exists_of_within_relabel hu
  obtain ⟨qs, b, -, -, hnames⟩ := Kind.exists_of_relabel_eq_object hk
  exact hnames

theorem Ty.Keyed.relabel {t : Ty} (h : t.Keyed) (rename : Option String → Option String) :
    (t.relabel f rename).Keyed := by
  intro u hu ps a hk
  obtain ⟨w, rename', hw, rfl⟩ := exists_of_within_relabel hu
  obtain ⟨qs, b, hqs, hkeys, -⟩ := Kind.exists_of_relabel_eq_object hk
  rw [Dict.Distinct, hkeys]
  exact h w hw qs b hqs

/-! ## Labels in namespaces -/

/-- Labels the properties in the types of parameters by `Ty.label`. The parameters keep their names.
-/
def labelParams (f : String → String) (ps : List Property) : List Property :=
  ps.map fun p => { p with type := p.type.label f }

/-- Labels everything that is declared in a namespace by its key, the types by `Ty.relabel`. The
name of a declared type may depend on its own name. -/
def Namespace.relabel (f : String → String) (rename : String → Option String → Option String)
    (ns : Namespace) : Namespace where
  name := ns.name
  types := ⟨ns.types.entries.map fun e => (e.1, e.2.relabel f (rename e.1))⟩
  manifest := ns.manifest.map fun t => t.relabel f (rename "ManifestKeys")
  functions := ⟨ns.functions.entries.map fun e =>
    (e.1, ⟨f e.1, labelParams f e.2.params, e.2.results.map (labelParams f)⟩)⟩
  events := ⟨ns.events.entries.map fun e => (e.1, ⟨f e.1, labelParams f e.2.params⟩)⟩
  errorMessages := ns.errorMessages

/-- Without the names that are filled in: those of properties, of functions and events, and of the
declared types and the manifest. The names of parameters and of types inside others stay. -/
def Namespace.blank : Namespace → Namespace := relabel (fun _ => "") fun _ _ => none

variable {rename rename' : String → Option String → Option String} {ns : Namespace}

theorem Ty.relabel_relabel (t : Ty) (own own' : Option String → Option String) :
    (t.relabel g own').relabel f own = t.relabel f (own ∘ own') := by
  have hlabel : label f ∘ label g = label f := funext fun t => t.label_label
  rw [relabel, relabel, Kind.relabel_relabel, hlabel]
  rfl

theorem labelParams_labelParams (ps : List Property) :
    labelParams f (labelParams g ps) = labelParams f ps := by
  simp [labelParams, Ty.label_label]

theorem Namespace.relabel_relabel :
    (ns.relabel g rename').relabel f rename = ns.relabel f fun key => rename key ∘ rename' key := by
  have hparams : labelParams f ∘ labelParams g = labelParams f := funext labelParams_labelParams
  simp [relabel, Ty.relabel_relabel, labelParams_labelParams, hparams, Function.comp_def]

/-- The name of a declared type: its own, or its key. What `Ty.withDefaultName` gives. -/
def ownOrKey (key : String) (own : Option String) : Option String := some (own.getD key)

theorem Ty.nameProperties_withDefaultName (t : Ty) (key : String) :
    (t.withDefaultName key).nameProperties = t.relabel id (ownOrKey key) := by
  rw [nameProperties_eq_label, label_eq]
  rfl

theorem nameParams_eq (ps : List Property) : nameParams ps = labelParams id ps := by
  simp only [nameParams, labelParams, Ty.nameProperties_eq_label]

theorem Namespace.assignNames_eq : ns.assignNames = ns.relabel id ownOrKey := by
  have hparams : nameParams = labelParams id := funext nameParams_eq
  simp only [assignNames, relabel, Ty.nameProperties_withDefaultName, hparams, id]

/-! ## Names are filled in -/

/-- Properties at any depth (`Ty.Named`), functions and events have their keys for names. -/
structure Namespace.Named (ns : Namespace) : Prop where
  properties : ∀ root ∈ ns.rootTypes, root.Named
  functions : ∀ e ∈ ns.functions.entries, e.2.name = e.1
  events : ∀ e ∈ ns.events.entries, e.2.name = e.1

/-- A namespace after its names have been filled in: it is `Named`, nothing else has changed
(`blank`), and there is nothing left to fill in. -/
structure Namespace.Filled (written ns : Namespace) : Prop where
  named : ns.Named
  types : ns.types.entries.map (fun e => (e.1, e.2.name)) =
    written.types.entries.map fun e => (e.1, some (e.2.name.getD e.1))
  manifest : ns.manifest.map (·.name) = written.manifest.map fun t => some (t.name.getD "ManifestKeys")
  blank : ns.blank = written.blank
  again : ns.assignNames = ns

theorem Namespace.paramLists_relabel :
    (ns.relabel f rename).paramLists = ns.paramLists.map (labelParams f) := by
  simp only [paramLists, relabel, Dict.values, List.map_map, List.map_append, List.map_flatMap,
    List.flatMap_map, List.map_cons, Option.toList_map, Function.comp_def]

theorem Namespace.exists_of_mem_rootTypes_relabel {root : Ty} (h : root ∈ (ns.relabel f rename).rootTypes) :
    ∃ t ∈ ns.rootTypes, ∃ own, root = t.relabel f own := by
  rw [rootTypes, paramLists_relabel, List.mem_append, List.mem_append] at h
  rcases h with (h | h) | h
  · obtain ⟨_, he, rfl⟩ := List.mem_map.mp h
    obtain ⟨e, hmem, rfl⟩ := List.mem_map.mp he
    have ht : e.2 ∈ ns.types.values := List.mem_map_of_mem hmem
    exact ⟨e.2, by simp [rootTypes, ht], _, rfl⟩
  · obtain ⟨t, ht, rfl⟩ := Option.map_eq_some_iff.mp (Option.mem_toList.mp h)
    exact ⟨t, by simp [rootTypes, ht], _, rfl⟩
  · obtain ⟨_, hps, hroot⟩ := List.mem_flatMap.mp h
    obtain ⟨ps, hmem, rfl⟩ := List.mem_map.mp hps
    obtain ⟨_, hparam, rfl⟩ := List.mem_map.mp hroot
    obtain ⟨q, hq, rfl⟩ := List.mem_map.mp hparam
    have ht : q.type ∈ ns.paramLists.flatMap (·.map (·.type)) :=
      List.mem_flatMap.mpr ⟨ps, hmem, List.mem_map_of_mem hq⟩
    exact ⟨q.type, List.mem_append_right _ ht, id, q.type.label_eq⟩

theorem Namespace.named_relabel : (ns.relabel id rename).Named where
  properties := by
    intro root hroot
    obtain ⟨t, -, own, rfl⟩ := exists_of_mem_rootTypes_relabel hroot
    exact t.named_relabel own
  functions := by
    intro e he
    obtain ⟨e, -, rfl⟩ := List.mem_map.mp he
    rfl
  events := by
    intro e he
    obtain ⟨e, -, rfl⟩ := List.mem_map.mp he
    rfl

theorem Namespace.filled_assignNames (ns : Namespace) : Filled ns ns.assignNames where
  named := by
    rw [assignNames_eq]
    exact named_relabel
  types := by
    rw [assignNames_eq, relabel, List.map_map]
    rfl
  manifest := by
    rw [assignNames_eq, relabel, Option.map_map]
    rfl
  blank := by
    rw [assignNames_eq, Namespace.blank, relabel_relabel]
    rfl
  again := by
    rw [assignNames_eq, assignNames_eq, relabel_relabel]
    rfl

theorem KeyedParams.label {ps : List Property} (h : KeyedParams ps) : KeyedParams (labelParams f ps) := by
  refine ⟨?_, fun q hq => ?_⟩
  · rw [labelParams, List.map_map]
    exact h.1
  · obtain ⟨q, hmem, rfl⟩ := List.mem_map.mp hq
    rw [Ty.label_eq]
    exact (h.2 q hmem).relabel id

theorem Namespace.Keyed.relabel (h : ns.Keyed) : (ns.relabel f rename).Keyed where
  types := by
    refine ⟨h.types.1.map_entries _, fun e he => ?_⟩
    obtain ⟨e, hmem, rfl⟩ := List.mem_map.mp he
    exact (h.types.2 e hmem).relabel _
  manifest := by
    intro t ht
    obtain ⟨u, hu, rfl⟩ := Option.map_eq_some_iff.mp ht
    exact (h.manifest u hu).relabel _
  functions := by
    refine ⟨h.functions.1.map_entries _, fun e he => ?_⟩
    obtain ⟨e, hmem, rfl⟩ := List.mem_map.mp he
    obtain ⟨hparams, hresults⟩ := h.functions.2 e hmem
    refine ⟨hparams.label, fun ps hps => ?_⟩
    obtain ⟨qs, hqs, rfl⟩ := Option.map_eq_some_iff.mp hps
    exact (hresults qs hqs).label
  events := by
    refine ⟨h.events.1.map_entries _, fun e he => ?_⟩
    obtain ⟨e, hmem, rfl⟩ := List.mem_map.mp he
    exact (h.events.2 e hmem).label

theorem Namespace.Keyed.assignNames (h : ns.Keyed) : ns.assignNames.Keyed := by
  rw [assignNames_eq]
  exact h.relabel

/-- What is loaded is the namespace as written with its names `Filled` in, and its keys and the
names of its parameters are distinct (`Namespace.Keyed`). Filling in names does so for every
namespace. -/
theorem filled_of_load :
    (∀ ns : Namespace, Namespace.Filled ns ns.assignNames) ∧
      (∀ bs ns, loadNamespace bs = .ok ns →
        ∃ written, Document.load Reading.namespaceAsWritten bs = .ok written ∧
          Namespace.Filled written ns ∧ ns.Keyed) ∧
      ∀ bs nss, loadNamespaces bs = .ok nss →
        ∃ written, Document.load (.list Reading.namespaceAsWritten) bs = .ok written ∧
          List.Forall₂ (fun w ns => Namespace.Filled w ns ∧ ns.Keyed) written nss := by
  refine ⟨Namespace.filled_assignNames, fun bs ns h => ?_, fun bs nss h => ?_⟩
  · obtain ⟨written, hw, rfl⟩ := map_eq_ok_iff.mp h
    have hkeyed := (Reading.gives_namespaceAsWritten _ _ written hw).2
    exact ⟨written, hw, written.filled_assignNames, hkeyed.assignNames⟩
  · obtain ⟨written, hw, rfl⟩ := map_eq_ok_iff.mp h
    have hkeyed := (Reading.gives_namespaceAsWritten.list _ _ written hw).2
    refine ⟨written, hw, List.forall₂_map_right_iff.mpr (List.forall₂_same.mpr fun w hmem => ?_)⟩
    exact ⟨w.filled_assignNames, (hkeyed w hmem).assignNames⟩

theorem filled_of_load_board :
    (∃ ns written, loadNamespace Board.document = .ok ns ∧ Board.labels ns = ["at", "x"] ∧
      Document.load Reading.namespaceAsWritten Board.document = .ok written ∧
      Namespace.Filled written ns ∧ ns.Keyed) ∧
    ∃ nss written, loadNamespaces Board.documents = .ok nss ∧
      Document.load (.list Reading.namespaceAsWritten) Board.documents = .ok written ∧
      List.Forall₂ (fun w ns => Namespace.Filled w ns ∧ ns.Keyed) written nss := by
  obtain ⟨ns, hns, hlabels⟩ := Board.exists_namespace
  obtain ⟨nss, hnss⟩ := Board.exists_namespaces
  obtain ⟨written, hw, hfilled⟩ := filled_of_load.2.1 _ ns hns
  obtain ⟨writtens, hws, hall⟩ := filled_of_load.2.2 _ nss hnss
  exact ⟨⟨ns, written, hns, hlabels, hw, hfilled⟩, nss, writtens, hnss, hws, hall⟩

/-! ## Registries of loaded namespaces -/

theorem Namespace.Keyed.params (h : ns.Keyed) {ps : List Property} (hps : ps ∈ ns.paramLists) :
    KeyedParams ps := by
  rcases List.mem_append.mp hps with hps | hps
  · obtain ⟨_, hf, hps⟩ := List.mem_flatMap.mp hps
    obtain ⟨e, he, rfl⟩ := List.mem_map.mp hf
    obtain ⟨hparams, hresults⟩ := h.functions.2 e he
    rcases List.mem_cons.mp hps with rfl | hps
    · exact hparams
    · exact hresults ps (Option.mem_toList.mp hps)
  · obtain ⟨_, hevent, rfl⟩ := List.mem_map.mp hps
    obtain ⟨e, he, rfl⟩ := List.mem_map.mp hevent
    exact h.events.2 e he

theorem Namespace.Keyed.root (h : ns.Keyed) {root : Ty} (hroot : root ∈ ns.rootTypes) : root.Keyed := by
  rw [rootTypes, List.mem_append, List.mem_append] at hroot
  rcases hroot with (hroot | hroot) | hroot
  · obtain ⟨e, he, rfl⟩ := List.mem_map.mp hroot
    exact h.types.2 e he
  · exact h.manifest root (Option.mem_toList.mp hroot)
  · obtain ⟨ps, hps, hroot⟩ := List.mem_flatMap.mp hroot
    obtain ⟨q, hq, rfl⟩ := List.mem_map.mp hroot
    exact (h.params hps).2 q hq

/-- In a `Ty.Named` type the names of properties are their keys, which `Ty.Keyed` makes distinct. -/
theorem Ty.Keyed.nodup_propertyNames {t u : Ty} (h : t.Keyed) (hn : t.Named) (hu : ReflTransGen Part u t) :
    u.kind.propertyNames.Nodup := by
  cases hk : u.kind with
  | object ps a =>
    have hnames : ps.values.map (·.name) = ps.keys := by
      rw [Dict.values, List.map_map, Dict.keys]
      exact List.map_congr_left (hn u hu ps a hk)
    rw [Kind.propertyNames, hnames]
    exact h u hu ps a hk
  | boolean | integer | int64 | double | string | any | binary | array | choices | enumeration
  | function | reference => exact List.nodup_nil

theorem uniqueNames_of_keyed {r : Registry} (h : ∀ ns ∈ r.namespaces, ns.Named ∧ ns.Keyed) :
    r.UniqueNames where
  properties := by
    rintro t ⟨ns, hns, root, hroot, ht⟩
    obtain ⟨hnamed, hkeyed⟩ := h ns hns
    exact (hkeyed.root hroot).nodup_propertyNames (hnamed.properties root hroot) ht
  params ns hns ps hps := ((h ns hns).2.params hps).1

theorem named_of_loadNamespace {bs : List UInt8} (h : loadNamespace bs = .ok ns) : ns.Named ∧ ns.Keyed := by
  obtain ⟨written, hw, rfl⟩ := map_eq_ok_iff.mp h
  have hkeyed := (Reading.gives_namespaceAsWritten _ _ written hw).2
  exact ⟨written.filled_assignNames.named, hkeyed.assignNames⟩

theorem named_of_loadNamespaces {bs : List UInt8} {nss : List Namespace} (h : loadNamespaces bs = .ok nss)
    (hns : ns ∈ nss) : ns.Named ∧ ns.Keyed := by
  obtain ⟨written, hw, rfl⟩ := map_eq_ok_iff.mp h
  obtain ⟨w, hmem, rfl⟩ := List.mem_map.mp hns
  have hkeyed := (Reading.gives_namespaceAsWritten.list _ _ written hw).2
  exact ⟨w.filled_assignNames.named, (hkeyed w hmem).assignNames⟩

/-- Namespaces that `loadNamespace` has given have distinct names throughout. -/
theorem uniqueNames_of_loadNamespace {r : Registry}
    (h : ∀ ns ∈ r.namespaces, ∃ bs, loadNamespace bs = .ok ns) : r.UniqueNames := by
  refine uniqueNames_of_keyed fun ns hns => ?_
  obtain ⟨bs, hbs⟩ := h ns hns
  exact named_of_loadNamespace hbs

/-- So `Registry.UniqueNames`, which results on generated codecs assume, holds of the registry of
every document that `Codec.ofDocument` takes. -/
theorem exists_uniqueNames_of_ofDocument {bs : List UInt8} {name : String} {c : Codec}
    (h : Codec.ofDocument bs name = .ok c) :
    ∃ r : Registry, r.UniqueNames ∧ Codec.generate r {} name = .ok c := by
  obtain ⟨nss, hload, h⟩ := Codec.bind_eq_ok_iff.mp h
  obtain ⟨r, hr, h⟩ := Codec.bind_eq_ok_iff.mp h
  rw [Codec.mapError_eq_ok_iff] at hload hr h
  refine ⟨r, uniqueNames_of_keyed fun ns hns => ?_, h⟩
  rw [Registry.namespaces_of_ofList hr] at hns
  exact named_of_loadNamespaces hload hns

end Interchange.Schema
