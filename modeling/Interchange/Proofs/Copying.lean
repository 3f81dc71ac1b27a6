import Interchange.Instance.Clone
import Interchange.Proofs.Conformance

/-! # What data is copied as

As with writing, copying is described without errors and without the places that they name: `copy?`
says what copy data yields, and one equation for each shape says how (`copy?_array`, `copy?_object`,
`copy?_choices`).
-/

namespace Interchange

open Plan

namespace Table

variable {t : Table} {p items : Plan} {o : ObjectPlan} {c : ChoicesPlan} {x y : Data} {place : String}

/-- The copy of data by `clone`. The place is left out, see `copiedAnywhere`. -/
def copy? (t : Table) (p : Plan) (x : Data) : Option Data := (t.clone p x "").toOption

/-- The copy of an item, which is not compared with its plan where arrays are copied in one go
(`copiesItems`). -/
def copyItem? (t : Table) (items : Plan) (x : Data) : Option Data :=
  if copiesItems (t.shape items) then t.copy? items x else if x.isScalar then some x else none

/-- The copy of a slot; an empty one has an empty copy. -/
def copySlot? (t : Table) (p : Plan) : Option Data → Option (Option Data)
  | none => some none
  | some x => (t.copy? p x).map some

/-- The copies of the properties, by `copySlot?`, whether or not the object has other fields. -/
def copyFields? (t : Table) (ps : List PropertyPlan) (x : Object) :
    Option (List (String × Option Data)) :=
  ps.mapM fun q => (t.copySlot? q.plan (x.get? q.name)).map fun slot => (q.name, slot)

def copyEntries? (t : Table) (p : Plan) (es : List (String × Data)) : Option (List (String × Data)) :=
  es.mapM fun e => (t.copy? p e.2).map fun x => (e.1, x)

/-- The copies of the extra properties. -/
def copyExtras? (t : Table) (o : ObjectPlan) : Extras → Option Extras
  | .closed => some .closed
  | .any d => some (.any d)
  | .typed d => o.additional.bind fun a => (t.copyEntries? a d.entries).map fun es => .typed (.ofList es)

def copyObject? (t : Table) (o : ObjectPlan) (x : Object) : Option Object :=
  (t.copyFields? o.properties x).bind fun fields =>
    (t.copyExtras? o x.extras).map fun extras => ⟨.ofList fields, extras⟩

/-- The copies of as many slots as there are variants, from the position `i` on. -/
def copySlots? (t : Table) (ws : List VariantPlan) (x : Choice) (i : Nat) :
    Option (List (Option Data)) :=
  (ws.zipIdx i).mapM fun w => t.copySlot? w.1.plan (x.get? w.2)

def copyChoice? (t : Table) (c : ChoicesPlan) (x : Choice) : Option Choice :=
  (t.copySlots? c.variants x 0).map fun slots => ⟨slots⟩

/-! ## Places

Data is copied the same at every place; the place shows in errors only. -/

/-- The data is copied the same at every place, by every plan. -/
def CopiedAnywhere (t : Table) (x : Data) : Prop :=
  ∀ p place, (t.clone p x place).toOption = t.copy? p x

theorem toOption_clone_leaf (h : (t.shape p).isLeaf = true) (x : Data) (place : String) :
    (t.clone p x place).toOption = if (t.shape p).holdsLeaf x then some x else none := by
  rw [clone.eq_def]
  cases hs : t.shape p with
  | array | object | choices => simp [hs, ShapeOf.isLeaf] at h
  | function b => cases b <;> cases x <;> rfl
  | boolean | integer | int64 | double | string | binary | any | enumeration => cases x <;> rfl

theorem toOption_cloneItems {xs : List Data} (h : ∀ x ∈ xs, t.CopiedAnywhere x) (items : Plan)
    (place : String) (i : Nat) :
    (t.cloneItems items place i xs).toOption = xs.mapM (t.copyItem? items) := by
  induction xs generalizing i with
  | nil =>
    rw [cloneItems]
    rfl
  | cons x xs ih =>
    rw [List.forall_mem_cons] at h
    have ih := ih h.2 (i + 1)
    rw [cloneItems, List.mapM_cons, copyItem?]
    split
    · rw [toOption_bind, h.1]
      simp only [toOption_bind, ih]
      rfl
    · split
      · simp only [toOption_bind, ih]
        rfl
      · rfl

theorem toOption_cloneFields {x : Object} (h : ∀ k y, x.get? k = some y → t.CopiedAnywhere y)
    (ps : List PropertyPlan) (place : String) :
    (t.cloneFields ps x place).toOption = t.copyFields? ps x := by
  induction ps with
  | nil =>
    rw [cloneFields]
    rfl
  | cons q ps ih =>
    rw [cloneFields, copyFields?, List.mapM_cons]
    split
    · rename_i hy
      rw [hy, toOption_bind, ih]
      rfl
    · rename_i y hy
      rw [hy, toOption_bind, h _ y hy, copySlot?]
      simp only [toOption_bind, ih]
      cases t.copy? q.plan y <;> rfl

theorem toOption_cloneExtras {es : List (String × Data)} (h : ∀ e ∈ es, t.CopiedAnywhere e.2)
    (p : Plan) (place : String) :
    (t.cloneExtras p es place).toOption = t.copyEntries? p es := by
  induction es with
  | nil =>
    rw [cloneExtras]
    rfl
  | cons e es ih =>
    rw [List.forall_mem_cons] at h
    rw [cloneExtras, toOption_bind, h.1, copyEntries?, List.mapM_cons]
    simp only [toOption_bind, ih h.2]
    cases t.copy? p e.2 <;> rfl

theorem toOption_cloneObject {x : Object} (h : ∀ y, Data.Part y (.object x) → t.CopiedAnywhere y)
    (o : ObjectPlan) (place : String) :
    (t.cloneObject o x place).toOption = t.copyObject? o x := by
  rw [cloneObject, toOption_bind, toOption_cloneFields fun k y hy => h y (.field hy), copyObject?]
  congr 1
  funext fields
  split <;> rename_i hx
  · rw [hx]
    rfl
  · rw [hx]
    rfl
  · rename_i d
    rw [hx, copyExtras?]
    cases o.additional with
    | none => rfl
    | some a =>
      rw [toOption_bind, toOption_cloneExtras fun e he => h e.2 (.extra hx he), Option.bind_some,
        Option.map_map]
      exact Option.map_eq_bind.symm

theorem toOption_cloneSlots {x : Choice} (h : ∀ i y, x.get? i = some y → t.CopiedAnywhere y)
    (ws : List VariantPlan) (i : Nat) (place : String) :
    (t.cloneSlots ws x i place).toOption = t.copySlots? ws x i := by
  induction ws generalizing i with
  | nil =>
    rw [cloneSlots]
    rfl
  | cons w ws ih =>
    rw [cloneSlots, copySlots?, List.zipIdx_cons, List.mapM_cons]
    split
    · rename_i hy
      rw [hy, toOption_bind, ih]
      rfl
    · rename_i y hy
      rw [hy, toOption_bind, h _ y hy, copySlot?]
      simp only [toOption_bind, ih]
      cases t.copy? w.plan y <;> rfl

theorem toOption_cloneChoice {x : Choice} (h : ∀ y, Data.Part y (.choice x) → t.CopiedAnywhere y)
    (c : ChoicesPlan) (place : String) :
    (t.cloneChoice c x place).toOption = t.copyChoice? c x := by
  rw [cloneChoice, toOption_map, toOption_cloneSlots fun i y hy => h y (.slot hy)]
  rfl

/-- The copy of data of a shape with parts. -/
def copyParts? (t : Table) : Shape → Data → Option Data
  | .array items, .array xs => (xs.mapM (t.copyItem? items)).map .array
  | .object o, .object x => (t.copyObject? o x).map .object
  | .choices c, .choice x => (t.copyChoice? c x).map .choice
  | _, _ => none

theorem toOption_clone_parts (hs : (t.shape p).isLeaf = false)
    (h : ∀ y, Data.Part y x → t.CopiedAnywhere y) (place : String) :
    (t.clone p x place).toOption = t.copyParts? (t.shape p) x := by
  rw [clone.eq_def]
  cases hs' : t.shape p with
  | array items =>
    cases x with
    | array xs =>
      simp only [toOption_map, toOption_cloneItems fun y hy => h y (.item hy)]
      rfl
    | _ => rfl
  | object o =>
    cases x with
    | object x =>
      simp only [toOption_map, toOption_cloneObject h]
      rfl
    | _ => rfl
  | choices c =>
    cases x with
    | choice x =>
      simp only [toOption_map, toOption_cloneChoice h]
      rfl
    | _ => rfl
  | boolean | integer | int64 | double | string | binary | any | function | enumeration =>
    simp only [hs'] at hs
    cases hs

theorem copiedAnywhere (t : Table) (x : Data) : t.CopiedAnywhere x := by
  have ih : ∀ y, Data.Part y x → t.CopiedAnywhere y := fun y _ => copiedAnywhere t y
  intro p place
  rw [copy?]
  cases hs : (t.shape p).isLeaf with
  | true => rw [toOption_clone_leaf hs, toOption_clone_leaf hs]
  | false => rw [toOption_clone_parts hs ih, toOption_clone_parts hs ih]
termination_by sizeOf x
decreasing_by exact Data.Part.sizeOf_lt ‹_›

theorem cloneObject_eq_ok_iff {x y : Object} :
    t.cloneObject o x place = .ok y ↔ t.copyObject? o x = some y := by
  rw [← toOption_cloneObject (fun z _ => copiedAnywhere t z) o place, toOption_eq_some_iff]

theorem cloneChoice_eq_ok_iff {x y : Choice} :
    t.cloneChoice c x place = .ok y ↔ t.copyChoice? c x = some y := by
  rw [← toOption_cloneChoice (fun z _ => copiedAnywhere t z) c place, toOption_eq_some_iff]

/-! ## Copying by shapes -/

theorem copy?_parts (h : (t.shape p).isLeaf = false) (x : Data) :
    t.copy? p x = t.copyParts? (t.shape p) x :=
  toOption_clone_parts h (fun y _ => copiedAnywhere t y) ""

theorem isLeaf_of_holdsLeaf (h : (t.shape p).holdsLeaf x = true) : (t.shape p).isLeaf = true :=
  (exists_writeLeaf? h).1

theorem atom_of_holdsLeaf (h : (t.shape p).holdsLeaf x = true) :
    x.array? = none ∧ x.object? = none ∧ x.choice? = none := by
  cases x with
  | array | object | choice =>
    cases hs : t.shape p with
    | function b => cases b <;> simp [hs, ShapeOf.holdsLeaf] at h
    | _ => simp [hs, ShapeOf.holdsLeaf] at h
  | _ => exact ⟨rfl, rfl, rfl⟩

theorem copy?_of_holdsLeaf (h : (t.shape p).holdsLeaf x = true) : t.copy? p x = some x := by
  rw [copy?, toOption_clone_leaf (isLeaf_of_holdsLeaf h), if_pos h]

theorem copy?_array (h : t.shape p = .array items) (xs : List Data) :
    t.copy? p (.array xs) = (xs.mapM (t.copyItem? items)).map .array := by
  rw [copy?_parts (by rw [h]; rfl), h]
  rfl

theorem copy?_object (h : t.shape p = .object o) (x : Object) :
    t.copy? p (.object x) = (t.copyObject? o x).map .object := by
  rw [copy?_parts (by rw [h]; rfl), h]
  rfl

theorem copy?_choices (h : t.shape p = .choices c) (x : Choice) :
    t.copy? p (.choice x) = (t.copyChoice? c x).map .choice := by
  rw [copy?_parts (by rw [h]; rfl), h]
  rfl

/-- How `copy?` copies data: in one of four ways, by the shape of the plan. -/
inductive CopiesAs (t : Table) (p : Plan) : Data → Data → Prop
  | leaf {x : Data} (h : (t.shape p).holdsLeaf x = true) : CopiesAs t p x x
  | array {items : Plan} {xs ys : List Data} (hs : t.shape p = .array items)
      (h : List.Forall₂ (fun x y => t.copyItem? items x = some y) xs ys) :
      CopiesAs t p (.array xs) (.array ys)
  | object {o : ObjectPlan} {x y : Object} (hs : t.shape p = .object o)
      (h : t.copyObject? o x = some y) : CopiesAs t p (.object x) (.object y)
  | choice {c : ChoicesPlan} {x y : Choice} (hs : t.shape p = .choices c)
      (h : t.copyChoice? c x = some y) : CopiesAs t p (.choice x) (.choice y)

theorem copiesAs_of_copy? (h : t.copy? p x = some y) : t.CopiesAs p x y := by
  cases hl : (t.shape p).isLeaf with
  | true =>
    rw [copy?, toOption_clone_leaf hl] at h
    split at h
    · cases h
      exact .leaf ‹_›
    · cases h
  | false =>
    rw [copy?_parts hl] at h
    cases hs : t.shape p with
    | array items =>
      rw [hs] at h
      cases x with
      | array xs =>
        obtain ⟨ys, hys, rfl⟩ := Option.map_eq_some_iff.mp h
        exact .array hs (mapM_eq_some_iff.mp hys)
      | _ => cases h
    | object o =>
      rw [hs] at h
      cases x with
      | object x =>
        obtain ⟨y, hy, rfl⟩ := Option.map_eq_some_iff.mp h
        exact .object hs hy
      | _ => cases h
    | choices c =>
      rw [hs] at h
      cases x with
      | choice x =>
        obtain ⟨y, hy, rfl⟩ := Option.map_eq_some_iff.mp h
        exact .choice hs hy
      | _ => cases h
    | boolean | integer | int64 | double | string | binary | any | function | enumeration =>
      rw [hs] at hl
      cases hl

end Table

/-! ## What copies hold -/

namespace Dict

variable {α γ : Type}

theorem lookup_map_eq_find? (name : γ → String) (f : γ → α) (qs : List γ) (k : String) :
    (qs.map fun q => (name q, f q)).lookup k = (qs.find? fun q => k == name q).map f := by
  induction qs with
  | nil => rfl
  | cons q qs ih =>
    rw [List.map_cons, List.lookup_cons, List.find?_cons]
    cases k == name q with
    | true => rfl
    | false => exact ih

theorem get?_ofList_map (name : γ → String) (f : γ → α) (qs : List γ) (k : String) :
    (ofList (qs.map fun q => (name q, f q))).get? k =
      (qs.reverse.find? fun q => k == name q).map f := by
  rw [get?_ofList, ← List.map_reverse, lookup_map_eq_find?]

end Dict

/-- The property that counts for a name: the last one that has it, since `Dict.ofList` writes over.
-/
def lastNamed (ps : List PropertyPlan) (k : String) : Option PropertyPlan :=
  ps.reverse.find? fun q => k == q.name

theorem mem_of_lastNamed {ps : List PropertyPlan} {k : String} {q : PropertyPlan}
    (h : lastNamed ps k = some q) : q ∈ ps ∧ q.name = k := by
  rw [lastNamed] at h
  have hk := List.find?_some h
  exact ⟨List.mem_reverse.mp (List.mem_of_find?_eq_some h), (beq_iff_eq.mp hk).symm⟩

theorem lastNamed_eq_none_iff {ps : List PropertyPlan} {k : String} :
    lastNamed ps k = none ↔ k ∉ ps.map (·.name) := by
  rw [lastNamed, List.find?_eq_none, List.mem_map]
  constructor
  · rintro h ⟨q, hq, rfl⟩
    exact h q (List.mem_reverse.mpr hq) (beq_self_eq_true _)
  · intro h q hq hk
    exact h ⟨q, List.mem_reverse.mp hq, (beq_iff_eq.mp hk).symm⟩

theorem exists_lastNamed {ps : List PropertyPlan} {q : PropertyPlan} (hq : q ∈ ps) :
    ∃ r, lastNamed ps q.name = some r := by
  rw [← Option.ne_none_iff_exists', ne_eq, lastNamed_eq_none_iff, not_not]
  exact List.mem_map.mpr ⟨q, hq, rfl⟩

namespace Table

variable {t : Table} {o : ObjectPlan} {c : ChoicesPlan}

/-- An object with a field for each property, as `cloneObject` puts it together. -/
def objectOf (ps : List PropertyPlan) (f : PropertyPlan → Option Data) (extras : Extras) : Object :=
  ⟨.ofList (ps.map fun q => (q.name, f q)), extras⟩

section

variable {ps : List PropertyPlan} {f g : PropertyPlan → Option Data} {extras : Extras}

theorem get?_objectOf (k : String) : (objectOf ps f extras).get? k = (lastNamed ps k).bind f := by
  rw [Data.ObjectOf.get?, objectOf, Dict.get?_ofList_map, lastNamed]
  cases ps.reverse.find? fun q => k == q.name <;> rfl

theorem keys_objectOf (hn : (ps.map (·.name)).Nodup) :
    (objectOf ps f extras).fields.keys = ps.map (·.name) := by
  have hkeys : (ps.map fun q => (q.name, f q)).map (·.1) = ps.map (·.name) := List.map_map
  rw [objectOf, Dict.ofList_of_nodup (hkeys ▸ hn), Dict.keys, hkeys]

/-- Only the properties count that are `lastNamed`. -/
theorem objectOf_congr (h : ∀ k q, lastNamed ps k = some q → f q = g q) :
    objectOf ps f extras = objectOf ps g extras := by
  have hfields : Dict.ofList (ps.map fun q => (q.name, f q)) =
      .ofList (ps.map fun q => (q.name, g q)) := by
    refine Dict.ext_get? (Dict.distinct_ofList _) (Dict.keys_ofList_congr ?_) fun k => ?_
    · rw [List.map_map, List.map_map]
      rfl
    · rw [Dict.get?_ofList_map, Dict.get?_ofList_map]
      cases hk : ps.reverse.find? fun q => k == q.name with
      | none => rfl
      | some q => exact congrArg some (h k q hk)
  rw [objectOf, hfields, objectOf]

end

theorem copyFields?_eq_some_iff {ps : List PropertyPlan} {x : Object}
    {fields : List (String × Option Data)} :
    t.copyFields? ps x = some fields ↔
      ∃ f : PropertyPlan → Option Data,
        (∀ q ∈ ps, t.copySlot? q.plan (x.get? q.name) = some (f q)) ∧
        fields = ps.map fun q => (q.name, f q) := by
  rw [copyFields?, mapM_eq_some_iff]
  constructor
  · intro h
    refine ⟨fun q => (t.copySlot? q.plan (x.get? q.name)).getD none, fun q hq => ?_, ?_⟩
    · obtain ⟨_, -, hb⟩ := Forall₂.exists_right h q hq
      obtain ⟨slot, hslot, -⟩ := Option.map_eq_some_iff.mp hb
      simp only [hslot, Option.getD_some]
    · refine ((Forall₂.map_eq (g := id) (h.imp fun q b hb => ?_)).trans (List.map_id _)).symm
      obtain ⟨slot, hslot, rfl⟩ := Option.map_eq_some_iff.mp hb
      simp only [hslot, Option.getD_some, id_eq]
  · rintro ⟨f, hf, rfl⟩
    rw [List.forall₂_map_right_iff, List.forall₂_same]
    intro q hq
    rw [hf q hq, Option.map_some]

theorem copyObject?_eq_some_iff {x y : Object} :
    t.copyObject? o x = some y ↔
      ∃ f extras, (∀ q ∈ o.properties, t.copySlot? q.plan (x.get? q.name) = some (f q)) ∧
        t.copyExtras? o x.extras = some extras ∧ y = objectOf o.properties f extras := by
  rw [copyObject?, Option.bind_eq_some_iff]
  constructor
  · rintro ⟨fields, hfields, h⟩
    obtain ⟨f, hf, rfl⟩ := copyFields?_eq_some_iff.mp hfields
    obtain ⟨extras, hextras, rfl⟩ := Option.map_eq_some_iff.mp h
    exact ⟨f, extras, hf, hextras, rfl⟩
  · rintro ⟨f, extras, hf, hextras, rfl⟩
    refine ⟨_, copyFields?_eq_some_iff.mpr ⟨f, hf, rfl⟩, ?_⟩
    rw [hextras]
    rfl

theorem copySlots?_eq_some_iff {ws : List VariantPlan} {x : Choice} {slots : List (Option Data)} :
    t.copySlots? ws x 0 = some slots ↔ slots.length = ws.length ∧
      ∀ i w, ws[i]? = some w → t.copySlot? w.plan (x.get? i) = some (slots[i]?).join := by
  rw [copySlots?, mapM_eq_some_iff]
  constructor
  · intro h
    refine ⟨by simpa using h.length_eq.symm, fun i w hw => ?_⟩
    have hi := forall₂_iff_getElem?.mp h i
    rw [List.getElem?_zipIdx, hw, Nat.zero_add] at hi
    obtain ⟨slot, hslot, hcopy⟩ := exists_of_rel_some hi
    rw [hslot]
    exact hcopy
  · rintro ⟨hlength, h⟩
    refine forall₂_iff_getElem?.mpr fun i => ?_
    rw [List.getElem?_zipIdx, Nat.zero_add]
    cases hw : ws[i]? with
    | none =>
      rw [List.getElem?_eq_none (hlength ▸ List.getElem?_eq_none_iff.mp hw)]
      exact .none
    | some w =>
      have hi : i < slots.length := hlength ▸ (List.getElem?_eq_some_iff.mp hw).1
      have hcopy := h i w hw
      rw [List.getElem?_eq_getElem hi] at hcopy ⊢
      exact .some hcopy

theorem copyChoice?_eq_some_iff {x y : Choice} :
    t.copyChoice? c x = some y ↔ y.slots.length = c.variants.length ∧
      ∀ i w, c.variants[i]? = some w → t.copySlot? w.plan (x.get? i) = some (y.get? i) := by
  rw [copyChoice?, Option.map_eq_some_iff]
  constructor
  · rintro ⟨slots, h, rfl⟩
    exact copySlots?_eq_some_iff.mp h
  · exact fun h => ⟨y.slots, copySlots?_eq_some_iff.mpr h, rfl⟩

end Table

end Interchange
