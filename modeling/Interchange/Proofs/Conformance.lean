import Interchange.Codec.Use
import Interchange.Proofs.Scope
import Interchange.Proofs.Writing
import Mathlib.Data.List.Nodup

/-! # Instances that conform to their plan

`Conforms` says by rules, one for each shape, which data is of a plan. New instances conform
(`conforms_defaultData`), what is read conforms (`conforms_of_read?`) and has settled every choice
(`settled_of_read?`), and what conforms and has settled its choices can be written
(`exists_write?`).
-/

namespace Interchange

open Plan Populate
open Relation (ReflTransGen)

/-- Data of the form that a shape without parts asks for. -/
def Plan.ShapeOf.holdsLeaf {α : Type} : ShapeOf α → Data → Bool
  | .boolean, .boolean _ | .integer, .integer _ | .int64, .int64 _ | .double, .double _
  | .string, .string _ | .function true, .string _ | .binary, .binary _ | .any, .any _
  | .function false, .function _ | .enumeration _, .enumeration _ => true
  | _, _ => false

namespace Table

variable {t : Table} {p : Plan} {x : Data}

/-- Extra properties of the form that an object plan asks for. -/
def holdsExtras (t : Table) (o : ObjectPlan) : Extras → Bool
  | .closed => o.additional.isNone
  | .any _ => o.additional.any fun a => (t.shape a).tag == .any
  | .typed _ => o.additional.any fun a => (t.shape a).tag != .any

/-- Data that conforms to a plan. An object has exactly the declared fields; those that are required
and those of enumerations are present, and what is present conforms. A choice has a slot for each
variant; those of enumerations are present, and what is present conforms. -/
inductive Conforms (t : Table) : Plan → Data → Prop
  | leaf {p : Plan} {x : Data} (h : (t.shape p).holdsLeaf x = true) : Conforms t p x
  | array {p items : Plan} {xs : List Data} (hs : t.shape p = .array items)
      (content : ∀ x ∈ xs, Conforms t items x) : Conforms t p (.array xs)
  | object {p : Plan} {o : ObjectPlan} {x : Object} (hs : t.shape p = .object o)
      (fields : x.fields.keys.Perm (o.properties.map (·.name)))
      (present : ∀ q ∈ o.properties, q.optional = false ∨ t.isEnum q.plan = true →
        x.get? q.name ≠ none)
      (content : ∀ q ∈ o.properties, ∀ y, x.get? q.name = some y → Conforms t q.plan y)
      (extras : t.holdsExtras o x.extras = true)
      (typed : ∀ a d, o.additional = some a → x.extras = .typed d →
        ∀ e ∈ d.entries, Conforms t a e.2) : Conforms t p (.object x)
  | choice {p : Plan} {c : ChoicesPlan} {x : Choice} (hs : t.shape p = .choices c)
      (slots : x.slots.length = c.variants.length)
      (present : ∀ i w, c.variants[i]? = some w → t.isEnum w.plan = true → x.get? i ≠ none)
      (content : ∀ i w y, c.variants[i]? = some w → x.get? i = some y → Conforms t w.plan y) :
      Conforms t p (.choice x)

/-! ## Slots, objects and choices -/

/-- A slot that conforms to its property: present where the property must be, and of its plan. -/
structure ConformsSlot (t : Table) (q : PropertyPlan) (slot : Option Data) : Prop where
  present : q.optional = false ∨ t.isEnum q.plan = true → slot ≠ none
  content : ∀ y, slot = some y → t.Conforms q.plan y

/-- An object that conforms to its plan. The rule of `Conforms` for objects, by itself
(`conforms_object_iff`). -/
structure ConformsObject (t : Table) (o : ObjectPlan) (x : Object) : Prop where
  fields : x.fields.keys.Perm (o.properties.map (·.name))
  slots : ∀ q ∈ o.properties, t.ConformsSlot q (x.get? q.name)
  extras : t.holdsExtras o x.extras = true
  typed : ∀ a d, o.additional = some a → x.extras = .typed d → ∀ e ∈ d.entries, t.Conforms a e.2

/-- A choice that conforms to its plan. The rule of `Conforms` for choices, by itself
(`conforms_choice_iff`). -/
structure ConformsChoice (t : Table) (c : ChoicesPlan) (x : Choice) : Prop where
  slots : x.slots.length = c.variants.length
  present : ∀ i w, c.variants[i]? = some w → t.isEnum w.plan = true → x.get? i ≠ none
  content : ∀ i w y, c.variants[i]? = some w → x.get? i = some y → t.Conforms w.plan y

theorem conforms_object_iff {o : ObjectPlan} (hs : t.shape p = .object o) {x : Object} :
    t.Conforms p (.object x) ↔ t.ConformsObject o x := by
  constructor
  · intro h
    cases h with
    | leaf h => simp [hs, ShapeOf.holdsLeaf] at h
    | object hs' fields present content extras typed =>
      rw [hs] at hs'
      cases hs'
      exact ⟨fields, fun q hq => ⟨present q hq, content q hq⟩, extras, typed⟩
  · rintro ⟨fields, slots, extras, typed⟩
    exact .object hs fields (fun q hq => (slots q hq).present) (fun q hq => (slots q hq).content)
      extras typed

theorem conforms_choice_iff {c : ChoicesPlan} (hs : t.shape p = .choices c) {x : Choice} :
    t.Conforms p (.choice x) ↔ t.ConformsChoice c x := by
  constructor
  · intro h
    cases h with
    | leaf h => simp [hs, ShapeOf.holdsLeaf] at h
    | choice hs' slots present content =>
      rw [hs] at hs'
      cases hs'
      exact ⟨slots, present, content⟩
  · exact fun h => .choice hs h.slots h.present h.content

variable {q : PropertyPlan} {slot : Option Data}

theorem conformsSlot_some {y : Data} (h : t.Conforms q.plan y) : t.ConformsSlot q (some y) where
  present _ := by simp
  content _ hy := by
    cases hy
    exact h

theorem conforms_none_of_isEnum {p : Plan} (h : t.isEnum p = true) :
    t.Conforms p (.enumeration .none) := by
  obtain ⟨e, he⟩ := isEnum_iff.mp h
  exact .leaf (by rw [he]; rfl)

/-- The `absentSlot` of a property conforms unless the property is required. -/
theorem conformsSlot_absent (h : q.optional = true) : t.ConformsSlot q (t.absentSlot q.plan) := by
  unfold absentSlot
  split
  · exact conformsSlot_some (conforms_none_of_isEnum ‹_›)
  · rename_i he
    exact ⟨fun hq => by simp [h, he] at hq, nofun⟩

/-! ## Writing a slot -/

section Put

variable {o : ObjectPlan} {x : Object}

theorem get?_put_self (x : Object) (k : String) (slot : Option Data) : (x.put k slot).get? k = slot := by
  simp [Data.ObjectOf.get?, Data.ObjectOf.put]

theorem get?_put_ne (x : Object) {k k' : String} (slot : Option Data) (h : k' ≠ k) :
    (x.put k slot).get? k' = x.get? k' := by
  simp only [Data.ObjectOf.get?, Data.ObjectOf.put, Dict.get?_insert_ne _ _ h]

theorem ConformsObject.name_mem (h : t.ConformsObject o x) (hq : q ∈ o.properties) :
    q.name ∈ x.fields.keys :=
  h.fields.mem_iff.mpr (List.mem_map.mpr ⟨q, hq, rfl⟩)

theorem ConformsObject.put (hn : (o.properties.map (·.name)).Nodup) (h : t.ConformsObject o x)
    (hq : q ∈ o.properties) (hslot : t.ConformsSlot q slot) :
    t.ConformsObject o (x.put q.name slot) where
  fields := by
    rw [Data.ObjectOf.put, Dict.keys_insert, if_pos (h.name_mem hq)]
    exact h.fields
  slots q' hq' := by
    by_cases hne : q'.name = q.name
    · obtain rfl := List.inj_on_of_nodup_map hn hq' hq hne
      rwa [get?_put_self]
    · rw [get?_put_ne x slot hne]
      exact h.slots q' hq'
  extras := h.extras
  typed := h.typed

/-- A conforming object has all slots that `reserve` could add. -/
theorem ConformsObject.reserve (h : t.ConformsObject o x) (hq : q ∈ o.properties) :
    x.reserve q.name = x :=
  if_pos (Dict.contains_eq_true_iff.mpr (h.name_mem hq))

theorem ConformsObject.resetEnums (hn : (o.properties.map (·.name)).Nodup) (h : t.ConformsObject o x)
    {ps : List PropertyPlan} (hps : ∀ q ∈ ps, q ∈ o.properties) :
    t.ConformsObject o (resetEnums t ps x) := by
  induction ps generalizing x with
  | nil => exact h
  | cons q ps ih =>
    rw [List.forall_mem_cons] at hps
    simp only [Populate.resetEnums, List.foldl_cons]
    split
    · rename_i hq
      rw [Bool.and_eq_true] at hq
      exact ih (h.put hn hps.1 (conformsSlot_some (conforms_none_of_isEnum hq.2))) hps.2
    · exact ih h hps.2

end Put

/-! ## New instances -/

theorem holdsExtras_any {o : ObjectPlan} {a : Plan} (ha : o.additional = some a)
    (hs : t.shape a = .any) (d : Dict Value) : t.holdsExtras o (.any d) = true := by
  simp [holdsExtras, ha, hs, ShapeOf.tag]

theorem holdsExtras_typed {o : ObjectPlan} {a : Plan} (ha : o.additional = some a)
    (hs : t.shape a ≠ .any) (d : Dict Data) : t.holdsExtras o (.typed d) = true := by
  cases hs' : t.shape a with
  | any => exact absurd hs' hs
  | _ => simp [holdsExtras, ha, hs', ShapeOf.tag]

theorem holdsExtras_newExtras (t : Table) (o : ObjectPlan) : t.holdsExtras o (t.newExtras o) = true := by
  unfold newExtras
  split
  · rename_i ha
    simp [holdsExtras, ha]
  · split
    · exact holdsExtras_any ‹_› ‹_› ∅
    · exact holdsExtras_typed ‹_› ‹_› ∅

theorem typed_newExtras {o : ObjectPlan} {d : Dict Data} (h : t.newExtras o = .typed d) : d = ∅ := by
  unfold newExtras at h
  split at h
  · cases h
  · split at h <;> cases h
    rfl

/-- The slot of a property in a new object, by itself; `defaultFields` enters these. -/
def defaultSlot (t : Table) (q : PropertyPlan) : Option Data :=
  if t.isEnum q.plan then some (.enumeration .none)
  else if q.optional then none
  else some (t.defaultData q.plan)

theorem defaultFields_eq (ps : List PropertyPlan) :
    t.defaultFields ps = ps.map fun q => (q.name, t.defaultSlot q) := by
  induction ps with
  | nil => rw [defaultFields]; rfl
  | cons q ps ih => rw [defaultFields, ih, List.map_cons]; rfl

theorem get?_newObject {o : ObjectPlan} (hn : (o.properties.map (·.name)).Nodup)
    (hq : q ∈ o.properties) : (t.newObject o).get? q.name = t.defaultSlot q := by
  have hk : ((t.defaultFields o.properties).map (·.1)).Nodup := by rwa [map_fst_defaultFields]
  have hm : (q.name, t.defaultSlot q) ∈ t.defaultFields o.properties := by
    rw [defaultFields_eq]
    exact List.mem_map.mpr ⟨q, hq, rfl⟩
  have hg : (t.newObject o).fields.get? q.name = some (t.defaultSlot q) := by
    rw [newObject, Dict.get?_ofList_of_nodup hk]
    exact Dict.lookup_of_mem hk hm
  rw [Data.ObjectOf.get?, hg, Option.join_some]

/-- A new object conforms if the defaults of its required properties do. -/
theorem conformsObject_newObject {o : ObjectPlan} (hn : (o.properties.map (·.name)).Nodup)
    (h : ∀ q ∈ o.properties, q.optional = false → t.Conforms q.plan (t.defaultData q.plan)) :
    t.ConformsObject o (t.newObject o) where
  fields := by
    rw [newObject, Dict.ofList_of_nodup (by rwa [map_fst_defaultFields]), Dict.keys,
      map_fst_defaultFields]
  slots q hq := by
    rw [get?_newObject hn hq, defaultSlot]
    split
    · exact conformsSlot_some (conforms_none_of_isEnum ‹_›)
    · rename_i he
      split
      · rename_i ho
        refine ⟨fun h => by simp [ho, he] at h, ?_⟩
        intro y hy
        cases hy
      · rename_i ho
        exact conformsSlot_some (h q hq (by simpa using ho))
  extras := holdsExtras_newExtras t o
  typed a d _ hd := by
    rw [typed_newExtras hd]
    simp [EmptyCollection.emptyCollection]

theorem get?_newChoice (t : Table) (c : ChoicesPlan) (i : Nat) :
    (t.newChoice c).get? i = (c.variants[i]?).bind fun w => t.absentSlot w.plan := by
  rw [Data.ChoiceOf.get?, newChoice, List.getElem?_map]
  cases c.variants[i]? <;> rfl

theorem conformsChoice_newChoice (t : Table) (c : ChoicesPlan) :
    t.ConformsChoice c (t.newChoice c) where
  slots := by simp [newChoice]
  present i w hw he := by simp [get?_newChoice, hw, absentSlot, he]
  content i w y hw hy := by
    rw [get?_newChoice, hw, Option.bind_some, absentSlot] at hy
    split at hy
    · cases hy
      exact conforms_none_of_isEnum ‹_›
    · cases hy

theorem properties_lex_of_mem (t : Table) {ps : List PropertyPlan} (hq : q ∈ ps)
    (ho : q.optional = false) :
    Prod.Lex (· < ·) (· < ·) (t.requiredHeight q.plan, sizeOf q.plan)
      (t.propertiesHeight ps, sizeOf ps) := by
  induction ps with
  | nil => simp at hq
  | cons q' ps ih =>
    rcases List.mem_cons.mp hq with rfl | hq
    · exact t.property_lex ho ps
    · exact lex_trans (ih hq) (t.tail_lex q' ps)

theorem defaultData_array {items : Plan} (hs : t.shape p = .array items) :
    t.defaultData p = .array [] := by
  rw [defaultData]
  split <;> rename_i hs' <;> rw [hs] at hs' <;> cases hs'

theorem defaultData_object {o : ObjectPlan} (hs : t.shape p = .object o) :
    t.defaultData p = .object (t.newObject o) := by
  rw [defaultData]
  split <;> rename_i hs' <;> rw [hs] at hs' <;> cases hs'
  rfl

theorem defaultData_choices {c : ChoicesPlan} (hs : t.shape p = .choices c) :
    t.defaultData p = .choice (t.newChoice c) := by
  rw [defaultData]
  split <;> rename_i hs' <;> rw [hs] at hs' <;> cases hs'
  rfl

theorem holdsLeaf_defaultData (h : (t.shape p).isLeaf = true) :
    (t.shape p).holdsLeaf (t.defaultData p) = true := by
  rw [defaultData]
  split <;> rename_i hs <;> simp [hs, ShapeOf.isLeaf, ShapeOf.holdsLeaf] at h ⊢

/-- Every plan has a conforming default. The recursion is that of `defaultData`. -/
theorem conforms_defaultData (t : Table) (p : Plan) (hu : t.UniqueNames p) :
    t.Conforms p (t.defaultData p) := by
  cases hs : t.shape p with
  | array items =>
    rw [defaultData_array hs]
    exact .array hs (by simp)
  | object o =>
    rw [defaultData_object hs, conforms_object_iff hs]
    exact conformsObject_newObject (hu.nodup hs) fun q hq _ =>
      conforms_defaultData t q.plan (hu.part (part_property hs hq))
  | choices c =>
    rw [defaultData_choices hs, conforms_choice_iff hs]
    exact conformsChoice_newChoice t c
  | boolean | integer | int64 | double | string | binary | any | function | enumeration =>
    exact .leaf (holdsLeaf_defaultData (by rw [hs]; rfl))
termination_by (t.requiredHeight p, sizeOf p)
decreasing_by exact lex_trans (properties_lex_of_mem t hq ‹_›) (t.properties_lex hs)

theorem conformsObject_new {o : ObjectPlan} (hs : t.shape p = .object o) (hu : t.UniqueNames p) :
    t.ConformsObject o (t.newObject o) := by
  rw [← conforms_object_iff hs, ← defaultData_object hs]
  exact conforms_defaultData t p hu

/-! ## Reading -/

theorem holdsLeaf_of_readLeaf? {α : Type} {s : ShapeOf α} {v : Value} {x : Data}
    (h : s.readLeaf? v = some x) : s.holdsLeaf x = true := by
  cases s with
  | function b =>
    cases b <;>
    · obtain ⟨_, -, rfl⟩ := Option.map_eq_some_iff.mp h
      rfl
  | any =>
    cases h
    rfl
  | array | object | choices => cases h
  | boolean | integer | int64 | double | string | binary | enumeration =>
    obtain ⟨_, -, rfl⟩ := Option.map_eq_some_iff.mp h
    rfl

theorem conformsSlot_of_readSlot? {u : Option Value} (h : t.readSlot? q u = some slot)
    (hc : ∀ v y, u = some v → t.read? q.plan v = some y → t.Conforms q.plan y) :
    t.ConformsSlot q slot := by
  cases u with
  | none =>
    simp only [readSlot?] at h
    split at h
    · cases h
      exact conformsSlot_absent ‹_›
    · cases h
  | some v =>
    simp only [readSlot?] at h
    split at h
    · rename_i hi
      cases h
      simp only [ignores, Bool.and_eq_true, ShapeOf.isFunction_iff] at hi
      exact conformsSlot_some (.leaf (by rw [hi.2]; rfl))
    · obtain ⟨y, hy, rfl⟩ := Option.map_eq_some_iff.mp h
      exact conformsSlot_some (hc v y rfl hy)

theorem holdsExtras_of_readExtras? {o : ObjectPlan} {d : Dict Value} {extras : Extras}
    (h : t.readExtras? o d = some extras) : t.holdsExtras o extras = true := by
  unfold readExtras? at h
  split at h
  · rename_i ha
    cases h
    simp [holdsExtras, ha]
  · split at h
    · cases h
      exact holdsExtras_any ‹_› ‹_› _
    · obtain ⟨es, -, rfl⟩ := Option.map_eq_some_iff.mp h
      exact holdsExtras_typed ‹_› ‹_› _

theorem exists_of_readEntries? {a : Plan} {es : List (String × Value)} {xs : List (String × Data)}
    (h : t.readEntries? a es = some xs) {e : String × Data} (he : e ∈ xs) :
    ∃ v, (e.1, v) ∈ es ∧ t.read? a v = some e.2 := by
  obtain ⟨e', he', h⟩ := Forall₂.exists_left (mapM_eq_some_iff.mp h) e he
  obtain ⟨y, hy, rfl⟩ := Option.map_eq_some_iff.mp h
  exact ⟨e'.2, he', hy⟩

theorem exists_of_readExtras? {o : ObjectPlan} {d : Dict Value} {ds : Dict Data}
    (h : t.readExtras? o d = some (.typed ds)) {e : String × Data} (he : e ∈ ds.entries) :
    ∃ a v, o.additional = some a ∧ (e.1, v) ∈ d.entries ∧ t.read? a v = some e.2 := by
  unfold readExtras? at h
  split at h
  · cases h
  · rename_i a ha
    split at h
    · cases h
    · obtain ⟨xs, hxs, hds⟩ := Option.map_eq_some_iff.mp h
      cases hds
      obtain ⟨v, hv, hr⟩ := exists_of_readEntries? hxs (Dict.mem_ofList he)
      exact ⟨a, v, ha, hv, hr⟩

/-- Setting a slot of a new choice. -/
theorem get?_set_newChoice (t : Table) {c : ChoicesPlan} {i : Nat} {w : VariantPlan}
    (hw : c.variants[i]? = some w) (y : Data) (j : Nat) :
    Data.ChoiceOf.get? ⟨(t.newChoice c).slots.set i (some y)⟩ j =
      if j = i then some y else (t.newChoice c).get? j := by
  have hi : i < (t.newChoice c).slots.length := by
    simpa [newChoice] using (List.getElem?_eq_some_iff.mp hw).1
  rw [Data.ChoiceOf.get?, List.getElem?_set]
  by_cases hj : j = i
  · subst hj
    simp [hi]
  · rw [if_neg (Ne.symm hj), if_neg hj]
    rfl

theorem ConformsChoice.set_newChoice {c : ChoicesPlan} {i : Nat} {w : VariantPlan}
    (hw : c.variants[i]? = some w) {y : Data} (hy : t.Conforms w.plan y) :
    t.ConformsChoice c ⟨(t.newChoice c).slots.set i (some y)⟩ where
  slots := by simp [newChoice]
  present j w' hw' he := by
    rw [get?_set_newChoice t hw]
    split
    · simp
    · exact (conformsChoice_newChoice t c).present j w' hw' he
  content j w' y' hw' hy' := by
    rw [get?_set_newChoice t hw] at hy'
    split at hy'
    · subst j
      rw [hw] at hw'
      cases hw'
      cases hy'
      exact hy
    · exact (conformsChoice_newChoice t c).content j w' y' hw' hy'

/-- Whatever `read?` yields conforms. -/
theorem conforms_of_read? {v : Value} (hu : t.UniqueNames p) (h : t.read? p v = some x) :
    t.Conforms p x := by
  induction p, v using read_induction t generalizing x with
  | step p v ihv ihw =>
    cases readsAs_of_read? h with
    | leaf hs hx => exact .leaf (holdsLeaf_of_readLeaf? hx)
    | array hs hx =>
      refine .array hs fun y hy => ?_
      obtain ⟨u, hu', hr⟩ := Forall₂.exists_left hx y hy
      exact ihv u (.item hu') _ (hu.part (part_item hs)) hr
    | @object o d x hs hx =>
      have hn := hu.nodup hs
      have he := readExtras?_of_readObject? hx
      rw [conforms_object_iff hs]
      refine ⟨.of_eq (keys_of_readObject? hn hx), fun q hq => ?_, holdsExtras_of_readExtras? he, ?_⟩
      · refine conformsSlot_of_readSlot? (readSlot?_of_readObject? hn hx hq) fun u y hu' hr => ?_
        exact ihv u (.of_get? hu') _ (hu.part (part_property hs hq)) hr
      · intro a ds ha hds e hm
        rw [hds] at he
        obtain ⟨a', u, ha', hu', hr⟩ := exists_of_readExtras? he hm
        rw [ha] at ha'
        cases ha'
        exact ihv u (.entry hu') a (hu.part (part_additional hs ha)) hr
    | choice hs hx =>
      obtain ⟨i, w, y, hp, hr, rfl⟩ := exists_of_readChoice? hx
      have hw := getElem?_of_pick hp
      have hm := List.mem_of_getElem? hw
      rw [conforms_choice_iff hs]
      exact .set_newChoice hw (ihw _ hs w hm (hu.part (part_variant hs hm)) hr)

/-! ## Settled choices -/

theorem isNone_of_member? {e : EnumPlan} {v : Value} {m : EnumValue} (h : e.member? v = some m) :
    m.isNone = false := by
  obtain ⟨s, -, hs⟩ := Option.bind_eq_some_iff.mp h
  split at hs
  · cases hs
  · rename_i hn
    cases hs
    simpa using hn

/-- Whatever `read?` yields counts as content: an enumeration that has been read has a member. -/
theorem engaged_of_read? {v : Value} (h : t.read? p v = some x) : Data.engaged (some x) = true := by
  cases x with
  | enumeration m =>
    cases readsAs_of_read? h with
    | leaf hs hx =>
      have hl := holdsLeaf_of_readLeaf? hx
      cases hs' : t.shape p with
      | enumeration e =>
        rw [hs'] at hx
        obtain ⟨m', hm, hx⟩ := Option.map_eq_some_iff.mp hx
        cases hx
        rw [Data.engaged, isNone_of_member? hm]
        rfl
      | function b => cases b <;> simp [hs', ShapeOf.holdsLeaf] at hl
      | _ => simp [hs', ShapeOf.holdsLeaf] at hl
  | _ => rfl

theorem engaged_absentSlot (t : Table) (p : Plan) : Data.engaged (t.absentSlot p) = false := by
  unfold absentSlot
  split <;> rfl

theorem engaged_newChoice (t : Table) (c : ChoicesPlan) (i : Nat) :
    Data.engaged ((t.newChoice c).get? i) = false := by
  rw [get?_newChoice]
  cases c.variants[i]? with
  | none => rfl
  | some w => exact engaged_absentSlot t w.plan

/-- A choice that has been read has settled on the variant that took the value: no other slot of
`newChoice` is engaged. -/
theorem engaged_set_newChoice {c : ChoicesPlan} {i : Nat} {w : VariantPlan}
    (hw : c.variants[i]? = some w) {y : Data} (hy : Data.engaged (some y) = true) :
    Data.ChoiceOf.engaged ⟨(t.newChoice c).slots.set i (some y)⟩ = [i] := by
  refine Data.engaged_eq_singleton ?_ fun j hj => ?_
  · rw [get?_set_newChoice t hw, if_pos rfl]
    exact hy
  · rw [get?_set_newChoice t hw, if_neg hj]
    exact engaged_newChoice t c j

theorem settled_leaf {α : Type} {s : ShapeOf α} (h : s.holdsLeaf x = true) : x.Settled := by
  cases x with
  | array | object | choice =>
    cases s with
    | function b => cases b <;> cases h
    | _ => cases h
  | _ => exact Data.settled_atom rfl rfl rfl

theorem settled_absentSlot {y : Data} (h : t.absentSlot p = some y) : y.Settled := by
  unfold absentSlot at h
  split at h
  · cases h
    exact Data.settled_atom rfl rfl rfl
  · cases h

theorem settled_of_readSlot? {u : Option Value} {y : Data} (h : t.readSlot? q u = some (some y))
    (hc : ∀ v, u = some v → t.read? q.plan v = some y → y.Settled) : y.Settled := by
  cases u with
  | none =>
    simp only [readSlot?] at h
    split at h
    · exact settled_absentSlot (Option.some.inj h)
    · cases h
  | some v =>
    simp only [readSlot?] at h
    split at h
    · cases h
      exact Data.settled_atom rfl rfl rfl
    · obtain ⟨y', hy, hy'⟩ := Option.map_eq_some_iff.mp h
      cases hy'
      exact hc v rfl hy

/-- Whatever `read?` yields has settled all its choices. -/
theorem settled_of_read? {v : Value} (h : t.read? p v = some x) : x.Settled := by
  induction p, v using read_induction t generalizing x with
  | step p v ihv ihw =>
    cases readsAs_of_read? h with
    | leaf hs hx => exact settled_leaf (holdsLeaf_of_readLeaf? hx)
    | array hs hx =>
      refine Data.settled_of_parts nofun fun y hy => ?_
      cases hy with
      | item hy =>
        obtain ⟨u, hu, hr⟩ := Forall₂.exists_left hx y hy
        exact ihv u (.item hu) _ hr
    | @object o d x hs hx =>
      refine Data.settled_of_parts nofun fun y hy => ?_
      obtain ⟨slots, hslots, hx⟩ := Option.bind_eq_some_iff.mp hx
      obtain ⟨extras, he, rfl⟩ := Option.map_eq_some_iff.mp hx
      cases hy with
      | field hy =>
        obtain ⟨r, hr, -, hslot⟩ := exists_of_get? hslots hy
        obtain ⟨q, -, rfl⟩ := List.mem_map.mp hr
        exact settled_of_readSlot? hslot fun u hu hr => ihv u (.of_get? hu) _ hr
      | extra hd hm =>
        cases hd
        obtain ⟨a, u, -, hu, hr⟩ := exists_of_readExtras? he hm
        exact ihv u (.entry hu) a hr
    | choice hs hx =>
      obtain ⟨i, w, y, hp, hr, rfl⟩ := exists_of_readChoice? hx
      have hw := getElem?_of_pick hp
      refine Data.settled_of_parts ?_ fun y' hy' => ?_
      · rintro _ ⟨⟩
        exact ⟨i, engaged_set_newChoice hw (engaged_of_read? hr)⟩
      · cases hy' with
        | slot hy' =>
          rw [get?_set_newChoice t hw] at hy'
          split at hy'
          · cases hy'
            exact ihw _ hs w (List.mem_of_getElem? hw) hr
          · rw [get?_newChoice] at hy'
            obtain ⟨w', -, hy'⟩ := Option.bind_eq_some_iff.mp hy'
            exact settled_absentSlot hy'

/-! ## Writing -/

theorem exists_writeLeaf? {α : Type} {s : ShapeOf α} (h : s.holdsLeaf x = true) :
    s.isLeaf = true ∧ ∃ v, s.writeLeaf? x = some v := by
  cases s with
  | function b =>
    cases b <;> cases x <;> first | exact ⟨rfl, _, rfl⟩ | cases h
  | _ => cases x <;> first | exact ⟨rfl, _, rfl⟩ | cases h

theorem exists_mapM {α β : Type} {f : α → Option β} {as : List α} (h : ∀ a ∈ as, ∃ b, f a = some b) :
    ∃ bs, as.mapM f = some bs :=
  Option.isSome_iff_exists.mp (isSome_mapM.mpr fun a ha => Option.isSome_iff_exists.mpr (h a ha))

theorem exists_writeFields? {o : ObjectPlan} {x : Object}
    (present : ∀ q ∈ o.properties, q.optional = false ∨ t.isEnum q.plan = true → x.get? q.name ≠ none)
    (h : ∀ q ∈ o.properties, ∀ y, x.get? q.name = some y → ∃ v, t.write? q.plan y = some v) :
    ∃ es, t.writeFields? o.properties x = some es := by
  refine exists_mapM fun q hq => ?_
  obtain ⟨hq, hw⟩ := List.mem_filter.mp hq
  cases hg : x.get? q.name with
  | none =>
    refine absurd hg (present q hq (.inl ?_))
    simpa [hg, Data.engaged] using hw
  | some y =>
    obtain ⟨v, hv⟩ := h q hq y hg
    exact ⟨(q.name, v), by simp [writeField?, hg, hv]⟩

/-- Data that conforms and has `Settled` its choices can be written. -/
theorem exists_write? (h : t.Conforms p x) (hs : x.Settled) : ∃ v, t.write? p x = some v := by
  induction h with
  | leaf h =>
    obtain ⟨hl, v, hv⟩ := exists_writeLeaf? h
    exact ⟨v, (write?_leaf hl _).trans hv⟩
  | array hp content ih =>
    obtain ⟨vs, hvs⟩ := exists_mapM fun y hy => ih y hy (hs.part (.item hy))
    exact ⟨.list vs, by rw [write?_array hp, hvs, Option.map_some]⟩
  | @object p o x hp fields present content extras typed ihc iht =>
    obtain ⟨es, hes⟩ := exists_writeFields? present fun q hq y hy => ihc q hq y hy (hs.part (.field hy))
    suffices ∃ d, t.writeObject? o x = some d by
      obtain ⟨d, hd⟩ := this
      exact ⟨.dict d, by rw [write?_object hp, hd, Option.map_some]⟩
    rw [writeObject?, hes, Option.bind_some]
    split
    · exact ⟨_, rfl⟩
    · exact ⟨_, rfl⟩
    · rename_i d hd
      rw [hd] at extras
      cases ha : o.additional with
      | none => simp [holdsExtras, ha] at extras
      | some a =>
        obtain ⟨vs, hvs⟩ : ∃ vs, t.writeEntries? a d.entries = some vs := by
          refine exists_mapM fun e he => ?_
          obtain ⟨v, hv⟩ := iht a d ha hd e he (hs.part (.extra hd he))
          exact ⟨(e.1, v), by rw [hv, Option.map_some]⟩
        exact ⟨_, by rw [Option.bind_some, hvs, Option.map_some]⟩
  | @choice p c x hp slots present content ih =>
    obtain ⟨i, hi⟩ := hs x .refl
    have he := Data.engaged_of_engaged_eq hi
    cases hy : x.get? i with
    | none => simp [hy, Data.engaged] at he
    | some y =>
      have hlt : i < c.variants.length := slots ▸ Data.lt_of_engaged he
      have hw := List.getElem?_eq_getElem hlt
      obtain ⟨v, hv⟩ := ih i _ y hw hy (hs.part (.slot hy))
      exact ⟨v, by rw [write?_choices hp, writeChoice?_of_engaged hi, hw, hy]; exact hv⟩

end Table

end Interchange
