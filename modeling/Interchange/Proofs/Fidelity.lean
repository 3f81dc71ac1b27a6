import Interchange.Proofs.Copying
import Interchange.Proofs.Likeness
import Mathlib.Tactic.Choose

/-! # Copies are faithful

A copy is its own copy (`copy?_of_copy?`), whether or not the data that was copied has the shape of
its plan, and data that conforms has a copy that is like it, down to the bits of doubles
(`exists_copy?`). `CopiesFaithfully` says both of objects and choices.
-/

namespace Interchange

open Plan
open Relation (ReflTransGen)

namespace Table

variable {t : Table} {p p' items items' : Plan} {o : ObjectPlan} {c : ChoicesPlan}

/-! ## Copies can be copied

Two properties with one name are both copied from the same field, and the copy that the last makes
is kept. When the copy is copied again, the first finds what the last has left, and has to copy
that (`Recopies`). -/

/-- By whatever plan the data is copied, the copy has itself a copy by every plan that the data has
a copy by. -/
def Recopies (t : Table) (x : Data) : Prop :=
  ∀ p p' y z, t.copy? p x = some y → t.copy? p' x = some z → ∃ w, t.copy? p' y = some w

theorem eq_of_copy?_scalar {x y : Data} (hx : x.isScalar = true) (h : t.copy? p x = some y) : y = x := by
  cases copiesAs_of_copy? h with
  | leaf => rfl
  | array | object | choice => cases hx

theorem exists_copyItem?_copy {x y z : Data} (hx : t.Recopies x) (hy : t.copyItem? items x = some y)
    (hz : t.copyItem? items' x = some z) : ∃ w, t.copyItem? items' y = some w := by
  rw [copyItem?] at hy
  split at hy
  · rw [copyItem?] at hz ⊢
    split at hz
    · rename_i hs
      rw [if_pos hs]
      exact hx _ _ _ _ hy hz
    · rename_i hs
      split at hz
      · rename_i hscalar
        rw [if_neg hs, eq_of_copy?_scalar hscalar hy, if_pos hscalar]
        exact ⟨x, rfl⟩
      · cases hz
  · split at hy
    · cases hy
      exact ⟨z, hz⟩
    · cases hy

theorem exists_copySlot?_copy {slot s u : Option Data} (hx : ∀ x, slot = some x → t.Recopies x)
    (hs : t.copySlot? p slot = some s) (hu : t.copySlot? p' slot = some u) :
    ∃ w, t.copySlot? p' s = some w := by
  cases slot with
  | none =>
    cases hs
    exact ⟨u, hu⟩
  | some x =>
    obtain ⟨y, hy, rfl⟩ := Option.map_eq_some_iff.mp hs
    obtain ⟨z, hz, -⟩ := Option.map_eq_some_iff.mp hu
    obtain ⟨w, hw⟩ := hx x rfl p p' y z hy hz
    exact ⟨some w, by rw [copySlot?, hw, Option.map_some]⟩

theorem exists_copyExtras?_copy {o' : ObjectPlan} {extras e e' : Extras}
    (hx : ∀ d, extras = .typed d → ∀ r ∈ d.entries, t.Recopies r.2)
    (he : t.copyExtras? o extras = some e) (he' : t.copyExtras? o' extras = some e') :
    ∃ w, t.copyExtras? o' e = some w := by
  cases extras with
  | closed | any =>
    cases he
    exact ⟨e', he'⟩
  | typed d =>
    obtain ⟨a, -, he⟩ := Option.bind_eq_some_iff.mp he
    obtain ⟨es, hes, rfl⟩ := Option.map_eq_some_iff.mp he
    obtain ⟨a', ha', he'⟩ := Option.bind_eq_some_iff.mp he'
    obtain ⟨es', hes', -⟩ := Option.map_eq_some_iff.mp he'
    have hcopies : ∃ rs, t.copyEntries? a' (Dict.ofList es).entries = some rs := by
      refine exists_mapM fun r hr => ?_
      obtain ⟨r₀, hr₀, hcopy⟩ := Forall₂.exists_left (mapM_eq_some_iff.mp hes) r (Dict.mem_ofList hr)
      obtain ⟨y, hy, rfl⟩ := Option.map_eq_some_iff.mp hcopy
      obtain ⟨_, -, hcopy'⟩ := Forall₂.exists_right (mapM_eq_some_iff.mp hes') r₀ hr₀
      obtain ⟨z, hz, -⟩ := Option.map_eq_some_iff.mp hcopy'
      obtain ⟨w, hw⟩ := hx d rfl r₀ hr₀ a a' y z hy hz
      exact ⟨(r₀.1, w), by rw [hw, Option.map_some]⟩
    obtain ⟨rs, hrs⟩ := hcopies
    exact ⟨.typed (.ofList rs), by rw [copyExtras?, ha', Option.bind_some, hrs, Option.map_some]⟩

theorem exists_copyObject?_copy {o' : ObjectPlan} {x y z : Object}
    (hx : ∀ k u, x.get? k = some u → t.Recopies u)
    (he : ∀ d, x.extras = .typed d → ∀ r ∈ d.entries, t.Recopies r.2)
    (hy : t.copyObject? o x = some y) (hz : t.copyObject? o' x = some z) :
    ∃ w, t.copyObject? o' y = some w := by
  obtain ⟨f, e, hf, hextras, rfl⟩ := copyObject?_eq_some_iff.mp hy
  obtain ⟨g, e', hg, hextras', -⟩ := copyObject?_eq_some_iff.mp hz
  have hslots : ∀ q ∈ o'.properties,
      ∃ s, t.copySlot? q.plan ((objectOf o.properties f e).get? q.name) = some s := by
    intro q hq
    rw [get?_objectOf]
    cases hlast : lastNamed o.properties q.name with
    | none => exact ⟨none, rfl⟩
    | some r =>
      obtain ⟨hr, hname⟩ := mem_of_lastNamed hlast
      exact exists_copySlot?_copy (hx q.name) (hname ▸ hf r hr) (hg q hq)
  choose! h hh using hslots
  obtain ⟨w, hw⟩ := exists_copyExtras?_copy he hextras hextras'
  exact ⟨_, copyObject?_eq_some_iff.mpr ⟨h, w, hh, hw, rfl⟩⟩

theorem exists_copyChoice?_copy {c' : ChoicesPlan} {x y z : Choice}
    (hx : ∀ i u, x.get? i = some u → t.Recopies u) (hy : t.copyChoice? c x = some y)
    (hz : t.copyChoice? c' x = some z) : ∃ w, t.copyChoice? c' y = some w := by
  obtain ⟨hlength, hy⟩ := copyChoice?_eq_some_iff.mp hy
  obtain ⟨-, hz⟩ := copyChoice?_eq_some_iff.mp hz
  have hslots : ∃ slots, t.copySlots? c'.variants y 0 = some slots := by
    refine exists_mapM fun w hw => ?_
    have hw := List.mem_zipIdx_iff_getElem?.mp hw
    cases hv : c.variants[w.2]? with
    | none =>
      have hnone : y.get? w.2 = none := by
        rw [Data.ChoiceOf.get?, List.getElem?_eq_none (hlength ▸ List.getElem?_eq_none_iff.mp hv)]
        rfl
      exact ⟨none, by rw [hnone]; rfl⟩
    | some v => exact exists_copySlot?_copy (hx w.2) (hy w.2 v hv) (hz w.2 w.1 hw)
  obtain ⟨slots, hslots⟩ := hslots
  exact ⟨⟨slots⟩, by rw [copyChoice?, hslots, Option.map_some]⟩

theorem recopies (t : Table) (x : Data) : t.Recopies x := by
  have ih : ∀ y, Data.Part y x → t.Recopies y := fun y _ => recopies t y
  intro p p' y z hy hz
  cases copiesAs_of_copy? hy with
  | leaf => exact ⟨z, hz⟩
  | array hs h =>
    cases copiesAs_of_copy? hz with
    | leaf hl => cases (atom_of_holdsLeaf hl).1
    | array hs' h' =>
      have hitems := exists_mapM fun y hy => by
        obtain ⟨x, hx, hxy⟩ := Forall₂.exists_left h y hy
        obtain ⟨z, -, hxz⟩ := Forall₂.exists_right h' x hx
        exact exists_copyItem?_copy (ih x (.item hx)) hxy hxz
      obtain ⟨ws, hws⟩ := hitems
      exact ⟨.array ws, by rw [copy?_array hs', hws, Option.map_some]⟩
  | object hs h =>
    cases copiesAs_of_copy? hz with
    | leaf hl => cases (atom_of_holdsLeaf hl).2.1
    | object hs' h' =>
      obtain ⟨w, hw⟩ := exists_copyObject?_copy (fun k u hu => ih u (.field hu))
        (fun d hd r hr => ih r.2 (.extra hd hr)) h h'
      exact ⟨.object w, by rw [copy?_object hs', hw, Option.map_some]⟩
  | choice hs h =>
    cases copiesAs_of_copy? hz with
    | leaf hl => cases (atom_of_holdsLeaf hl).2.2
    | choice hs' h' =>
      obtain ⟨w, hw⟩ := exists_copyChoice?_copy (fun i u hu => ih u (.slot hu)) h h'
      exact ⟨.choice w, by rw [copy?_choices hs', hw, Option.map_some]⟩
termination_by sizeOf x
decreasing_by exact Data.Part.sizeOf_lt ‹_›

/-! ## Copies are their own copies -/

theorem copyItem?_of_copyItem? {x y : Data} (ih : ∀ p y, t.copy? p x = some y → t.copy? p y = some y)
    (h : t.copyItem? items x = some y) : t.copyItem? items y = some y := by
  rw [copyItem?] at h ⊢
  split at h
  · rename_i hs
    rw [if_pos hs]
    exact ih items y h
  · rename_i hs
    split at h
    · cases h
      rw [if_neg hs, if_pos ‹_›]
    · cases h

theorem copySlot?_of_copySlot? {slot s : Option Data}
    (ih : ∀ x, slot = some x → ∀ p y, t.copy? p x = some y → t.copy? p y = some y)
    (h : t.copySlot? p slot = some s) : t.copySlot? p s = some s := by
  cases slot with
  | none =>
    cases h
    rfl
  | some x =>
    obtain ⟨y, hy, rfl⟩ := Option.map_eq_some_iff.mp h
    rw [copySlot?, ih x rfl p y hy, Option.map_some]

theorem copyExtras?_of_copyExtras? {extras e : Extras}
    (ih : ∀ d, extras = .typed d → ∀ r ∈ d.entries, ∀ p y, t.copy? p r.2 = some y → t.copy? p y = some y)
    (h : t.copyExtras? o extras = some e) : t.copyExtras? o e = some e := by
  cases extras with
  | closed | any =>
    cases h
    rfl
  | typed d =>
    obtain ⟨a, ha, h⟩ := Option.bind_eq_some_iff.mp h
    obtain ⟨es, hes, rfl⟩ := Option.map_eq_some_iff.mp h
    have hcopies : t.copyEntries? a (Dict.ofList es).entries = some (Dict.ofList es).entries := by
      rw [copyEntries?, mapM_eq_some_iff, List.forall₂_same]
      intro r hr
      obtain ⟨r₀, hr₀, hcopy⟩ := Forall₂.exists_left (mapM_eq_some_iff.mp hes) r (Dict.mem_ofList hr)
      obtain ⟨y, hy, rfl⟩ := Option.map_eq_some_iff.mp hcopy
      rw [ih d rfl r₀ hr₀ a y hy, Option.map_some]
    rw [copyExtras?, ha, Option.bind_some, hcopies, Option.map_some,
      Dict.ofList_of_nodup (Dict.distinct_ofList es)]

theorem copyObject?_of_copyObject? {x y : Object}
    (ih : ∀ z, Data.Part z (.object x) → ∀ p y, t.copy? p z = some y → t.copy? p y = some y)
    (h : t.copyObject? o x = some y) : t.copyObject? o y = some y := by
  obtain ⟨f, e, hf, he, rfl⟩ := copyObject?_eq_some_iff.mp h
  -- Every property finds the copy that the last of its name has left.
  have hslots : ∀ q ∈ o.properties,
      ∃ s, t.copySlot? q.plan ((objectOf o.properties f e).get? q.name) = some s := by
    intro q hq
    obtain ⟨r, hlast⟩ := exists_lastNamed hq
    obtain ⟨hr, hname⟩ := mem_of_lastNamed hlast
    rw [get?_objectOf, hlast]
    exact exists_copySlot?_copy (fun z _ => recopies t z) (hname ▸ hf r hr) (hf q hq)
  choose! g hg using hslots
  refine copyObject?_eq_some_iff.mpr ⟨g, e, hg, ?_, objectOf_congr fun k q hlast => ?_⟩
  · exact copyExtras?_of_copyExtras? (fun d hd r hr => ih r.2 (.extra hd hr)) he
  · obtain ⟨hq, rfl⟩ := mem_of_lastNamed hlast
    have hcopy := hg q hq
    rw [get?_objectOf, hlast, Option.bind_some,
      copySlot?_of_copySlot? (fun z hz => ih z (.field hz)) (hf q hq)] at hcopy
    exact Option.some.inj hcopy

theorem copyChoice?_of_copyChoice? {x y : Choice}
    (ih : ∀ z, Data.Part z (.choice x) → ∀ p y, t.copy? p z = some y → t.copy? p y = some y)
    (h : t.copyChoice? c x = some y) : t.copyChoice? c y = some y := by
  obtain ⟨hlength, h⟩ := copyChoice?_eq_some_iff.mp h
  refine copyChoice?_eq_some_iff.mpr ⟨hlength, fun i w hw => ?_⟩
  exact copySlot?_of_copySlot? (fun z hz => ih z (.slot hz)) (h i w hw)

theorem copy?_of_copy? {x : Data} (p : Plan) (y : Data) (h : t.copy? p x = some y) :
    t.copy? p y = some y := by
  have ih : ∀ z, Data.Part z x → ∀ p y, t.copy? p z = some y → t.copy? p y = some y :=
    fun z _ p y => copy?_of_copy? p y
  cases copiesAs_of_copy? h with
  | leaf hl => exact copy?_of_holdsLeaf hl
  | array hs hxs =>
    rw [copy?_array hs, mapM_eq_some_iff.mpr, Option.map_some]
    rw [List.forall₂_same]
    intro y hy
    obtain ⟨x, hx, hxy⟩ := Forall₂.exists_left hxs y hy
    exact copyItem?_of_copyItem? (ih x (.item hx)) hxy
  | object hs hx =>
    rw [copy?_object hs, copyObject?_of_copyObject? ih hx, Option.map_some]
  | choice hs hx =>
    rw [copy?_choices hs, copyChoice?_of_copyChoice? ih hx, Option.map_some]
termination_by sizeOf x
decreasing_by exact Data.Part.sizeOf_lt ‹_›

end Table

/-! ## Data that cannot be told apart -/

namespace Data

/-- Data in which no field and no typed extra property is entered twice, at any depth, as in all
dictionaries that are made by inserting. -/
def Regular (x : Data) : Prop :=
  ∀ o, ReflTransGen Part (.object o) x → o.fields.Distinct ∧ ∀ d, o.extras = .typed d → d.Distinct

theorem Regular.part {y x : Data} (hx : Regular x) (h : Part y x) : Regular y :=
  fun o ho => hx o (ho.tail h)

theorem regular_of_parts {x : Data} (hx : ∀ o, x = .object o → o.fields.Distinct ∧
    ∀ d, o.extras = .typed d → d.Distinct) (h : ∀ y, Part y x → Regular y) : Regular x := by
  intro o ho
  rcases ho.cases_tail with rfl | ⟨y, hy, hpart⟩
  · exact hx o rfl
  · exact h y hpart o hy

theorem regular_of_isScalar {x : Data} (h : x.isScalar = true) : Regular x := by
  refine regular_of_parts (fun o ho => ?_) fun y hy => ?_
  · rw [ho] at h
    cases h
  · cases hy <;> cases h

/-- Data that has the same content as other data, down to the bits of doubles (`Alike`), and that
compares with it as that compares with itself: as equal, unless there is a NaN in it. -/
structure Faithful (y x : Data) : Prop where
  alike : Alike Eq y x
  same : y.same x = x.same x

theorem Faithful.refl (x : Data) : Faithful x x := ⟨.refl (fun _ => rfl) x, rfl⟩

/-- Extra properties that are the same, or typed with the same keys in the same order. -/
inductive FaithfulExtras : Extras → Extras → Prop
  | refl (e : Extras) : FaithfulExtras e e
  | typed {d' d : Dict Data} (hd : d.Distinct)
      (h : List.Forall₂ (fun r' r => r'.1 = r.1 ∧ Faithful r'.2 r.2) d'.entries d.entries) :
      FaithfulExtras (.typed d') (.typed d)

theorem sameItems_of_faithful {ys xs : List Data} (h : List.Forall₂ Faithful ys xs) :
    sameItems ys xs = sameItems xs xs := by
  induction h with
  | nil => rfl
  | cons hyx _ ih => rw [sameItems, hyx.same, ih, sameItems]

theorem sameSlot_of_faithful {s' s : Option Data} (h : Option.Rel Faithful s' s) :
    sameSlot s' s = sameSlot s s := by
  cases h with
  | none => rfl
  | some hyx => rw [sameSlot, hyx.same, sameSlot]

theorem sameSlots_of_faithful {ss' ss : List (Option Data)}
    (h : List.Forall₂ (Option.Rel Faithful) ss' ss) : sameSlots ss' ss = sameSlots ss ss := by
  induction h with
  | nil => rfl
  | cons hss _ ih => rw [sameSlots, sameSlot_of_faithful hss, ih, sameSlots]

theorem alike_of_faithful {s' s : Option Data} (h : Option.Rel Faithful s' s) :
    Option.Rel (Alike Eq) s' s := by
  cases h with
  | none => exact .none
  | some hyx => exact .some hyx.alike

theorem faithful_array {ys xs : List Data} (h : List.Forall₂ Faithful ys xs) :
    Faithful (.array ys) (.array xs) where
  alike := alike_array_iff.mpr (h.imp fun _ _ hyx => hyx.alike)
  same := by rw [same, sameItems_of_faithful h, same]

theorem faithful_choice {y x : Choice} (hlength : y.slots.length = x.slots.length)
    (h : ∀ i, Option.Rel Faithful (y.get? i) (x.get? i)) : Faithful (.choice y) (.choice x) where
  alike := alike_choice_iff.mpr ⟨hlength, fun i => alike_of_faithful (h i)⟩
  same := by
    obtain ⟨ss'⟩ := y
    obtain ⟨ss⟩ := x
    have hslots : List.Forall₂ (Option.Rel Faithful) ss' ss := by
      refine List.forall₂_iff_get.mpr ⟨hlength, fun i hi hi' => ?_⟩
      simpa [ChoiceOf.get?, List.getElem?_eq_getElem hi, List.getElem?_eq_getElem hi'] using h i
    rw [same, sameChoice, sameSlots_of_faithful hslots, same, sameChoice]

theorem sameFields_iff_forall {rs : List (String × Option Data)} {d : Dict (Option Data)} :
    sameFields rs d = true ↔ ∀ r ∈ rs, ∃ s, d.get? r.1 = some s ∧ sameSlot r.2 s = true := by
  induction rs with
  | nil => simp [sameFields]
  | cons r rs ih =>
    rw [sameFields, Bool.and_eq_true, ih, List.forall_mem_cons]
    cases d.get? r.1 <;> simp

/-- The fields of an object all have their counterparts in another object: `sameFields` by keys. -/
theorem sameFields_iff {a b : Object} (ha : a.fields.Distinct) :
    sameFields a.fields.entries b.fields = true ↔
      ∀ k ∈ a.fields.keys, k ∈ b.fields.keys ∧ sameSlot (a.get? k) (b.get? k) = true := by
  rw [sameFields_iff_forall]
  constructor
  · intro h k hk
    obtain ⟨r, hr, rfl⟩ := List.mem_map.mp hk
    obtain ⟨s, hs, hsame⟩ := h r hr
    refine ⟨Dict.contains_eq_true_iff.mp (Dict.contains_eq_true_iff_exists.mpr ⟨s, hs⟩), ?_⟩
    rwa [ObjectOf.get?, ObjectOf.get?, Dict.get?_of_mem ha hr, hs]
  · intro h r hr
    obtain ⟨hk, hsame⟩ := h r.1 (Dict.key_mem_of_mem hr)
    obtain ⟨s, hs⟩ := Dict.contains_eq_true_iff_exists.mp (Dict.contains_eq_true_iff.mpr hk)
    refine ⟨s, hs, ?_⟩
    rwa [ObjectOf.get?, ObjectOf.get?, Dict.get?_of_mem ha hr, hs] at hsame

theorem sameEntries_of_faithful {rs' rs : List (String × Data)} {d : Dict Data}
    (hd : ∀ r ∈ rs, d.get? r.1 = some r.2)
    (h : List.Forall₂ (fun r' r => r'.1 = r.1 ∧ Faithful r'.2 r.2) rs' rs) :
    sameEntries rs' d = sameEntries rs d := by
  induction h with
  | nil => rfl
  | cons hr _ ih =>
    rw [List.forall_mem_cons] at hd
    rw [sameEntries, sameEntries, hr.1, hd.1, ih hd.2]
    simp only [hr.2.same]

theorem FaithfulExtras.same {e' e : Extras} (h : FaithfulExtras e' e) :
    sameExtras e' e = sameExtras e e := by
  cases h with
  | refl => rfl
  | typed hd h =>
    rw [sameExtras, sameExtras, h.length_eq, sameEntries_of_faithful (fun r hr => Dict.get?_of_mem hd hr) h]

theorem lookup_of_faithful {rs' rs : List (String × Data)}
    (h : List.Forall₂ (fun r' r => r'.1 = r.1 ∧ Faithful r'.2 r.2) rs' rs) (k : String) :
    Option.Rel (Alike Eq) (rs'.lookup k) (rs.lookup k) := by
  induction h with
  | nil => exact .none
  | cons hr _ ih =>
    rw [List.lookup_cons, List.lookup_cons, hr.1]
    split
    · exact .some hr.2.alike
    · exact ih

theorem FaithfulExtras.alike {e' e : Extras} (h : FaithfulExtras e' e) : AlikeExtras Eq e' e := by
  cases h with
  | refl => exact (alike_object_iff.mp (.refl (fun _ => rfl) (.object ⟨∅, e'⟩))).2.2
  | typed hd h => exact .typed (lookup_of_faithful h)

theorem same_object (a b : Object) :
    same (.object a) (.object b) = (a.fields.size == b.fields.size &&
      sameFields a.fields.entries b.fields && sameExtras a.extras b.extras) := by
  rw [same, sameObject]
  rfl

theorem faithful_object {y x : Object} (hy : y.fields.Distinct) (hx : x.fields.Distinct)
    (hkeys : y.fields.keys.Perm x.fields.keys) (h : ∀ k, Option.Rel Faithful (y.get? k) (x.get? k))
    (he : FaithfulExtras y.extras x.extras) : Faithful (.object y) (.object x) where
  alike := by
    refine alike_object_iff.mpr ⟨fun k => ?_, fun k => alike_of_faithful (h k), he.alike⟩
    rw [Bool.eq_iff_iff, Dict.contains_eq_true_iff, Dict.contains_eq_true_iff, hkeys.mem_iff]
  same := by
    have hsize : y.fields.size = x.fields.size := by
      have hlength := hkeys.length_eq
      rwa [Dict.keys, Dict.keys, List.length_map, List.length_map] at hlength
    have hfields : sameFields y.fields.entries x.fields = sameFields x.fields.entries x.fields := by
      rw [Bool.eq_iff_iff, sameFields_iff hy, sameFields_iff hx]
      simp only [hkeys.mem_iff, sameSlot_of_faithful (h _)]
    rw [same_object, same_object, hsize, hfields, he.same]

end Data

namespace Table

variable {t : Table} {p items : Plan} {o : ObjectPlan} {c : ChoicesPlan}

/-- Arrays that are copied in one go (`copiesItems` is false) have scalars only. -/
theorem isScalar_of_conforms {x : Data} (hs : ¬ copiesItems (t.shape items) = true)
    (hc : t.Conforms items x) : x.isScalar = true := by
  cases hc with
  | leaf h =>
    cases hs' : t.shape items with
    | function b =>
      cases b <;> cases x <;> simp [hs', copiesItems, ShapeOf.holdsLeaf, Data.isScalar] at hs h ⊢
    | _ => cases x <;> simp [hs', copiesItems, ShapeOf.holdsLeaf, Data.isScalar] at hs h ⊢
  | array hs' | object hs' | choice hs' => exact absurd (by rw [hs']; rfl) hs

theorem exists_copyItem? {x : Data} (hc : t.Conforms items x)
    (ih : ∃ y, t.copy? items x = some y ∧ Data.Faithful y x) :
    ∃ y, t.copyItem? items x = some y ∧ Data.Faithful y x := by
  rw [copyItem?]
  split
  · exact ih
  · rename_i hs
    exact ⟨x, if_pos (isScalar_of_conforms hs hc), .refl x⟩

theorem exists_copySlot? {slot : Option Data}
    (ih : ∀ x, slot = some x → ∃ y, t.copy? p x = some y ∧ Data.Faithful y x) :
    ∃ s, t.copySlot? p slot = some s ∧ Option.Rel Data.Faithful s slot := by
  cases slot with
  | none => exact ⟨none, rfl, .none⟩
  | some x =>
    obtain ⟨y, hy, hyx⟩ := ih x rfl
    exact ⟨some y, by rw [copySlot?, hy, Option.map_some], .some hyx⟩

theorem exists_copyExtras? {extras : Extras} (hx : t.holdsExtras o extras = true)
    (hd : ∀ d, extras = .typed d → d.Distinct)
    (ih : ∀ a d, o.additional = some a → extras = .typed d → ∀ r ∈ d.entries,
      ∃ y, t.copy? a r.2 = some y ∧ Data.Faithful y r.2) :
    ∃ e, t.copyExtras? o extras = some e ∧ Data.FaithfulExtras e extras := by
  cases extras with
  | closed | any => exact ⟨_, rfl, .refl _⟩
  | typed d =>
    cases ha : o.additional with
    | none =>
      rw [holdsExtras, ha] at hx
      cases hx
    | some a =>
      have hentries : ∀ r ∈ d.entries, ∃ r', (t.copy? a r.2).map (fun y => (r.1, y)) = some r' ∧
          r'.1 = r.1 ∧ Data.Faithful r'.2 r.2 := by
        intro r hr
        obtain ⟨y, hy, hyr⟩ := ih a d ha rfl r hr
        exact ⟨(r.1, y), by rw [hy, Option.map_some], rfl, hyr⟩
      obtain ⟨rs, hrs⟩ := exists_forall₂ hentries
      have hcopies : t.copyEntries? a d.entries = some rs :=
        mapM_eq_some_iff.mpr (hrs.imp fun _ _ h => h.1)
      have hkeys : rs.map (·.1) = d.keys := map_fst_of_mapM hcopies
      have hdistinct : (rs.map (·.1)).Nodup := by
        rw [hkeys]
        exact hd d rfl
      refine ⟨.typed ⟨rs⟩, ?_, .typed (hd d rfl) (hrs.flip.imp fun _ _ h => h.2)⟩
      rw [copyExtras?, ha, Option.bind_some, hcopies, Option.map_some, Dict.ofList_of_nodup hdistinct]

theorem exists_copyObject? {x : Object} (hc : t.ConformsObject o x) (hd : x.fields.Distinct)
    (hdx : ∀ d, x.extras = .typed d → d.Distinct)
    (ih : ∀ q ∈ o.properties, ∀ z, x.get? q.name = some z →
      ∃ y, t.copy? q.plan z = some y ∧ Data.Faithful y z)
    (ihx : ∀ a d, o.additional = some a → x.extras = .typed d → ∀ r ∈ d.entries,
      ∃ y, t.copy? a r.2 = some y ∧ Data.Faithful y r.2) :
    ∃ y, t.copyObject? o x = some y ∧ Data.Faithful (.object y) (.object x) := by
  have hslots : ∀ q ∈ o.properties, ∃ s, t.copySlot? q.plan (x.get? q.name) = some s ∧
      Option.Rel Data.Faithful s (x.get? q.name) := fun q hq => exists_copySlot? (ih q hq)
  choose! f hf hrel using hslots
  obtain ⟨e, he, hex⟩ := exists_copyExtras? hc.extras hdx ihx
  refine ⟨objectOf o.properties f e, copyObject?_eq_some_iff.mpr ⟨f, e, hf, he, rfl⟩, ?_⟩
  refine Data.faithful_object (Dict.distinct_ofList _) hd ?_ (fun k => ?_) hex
  · rw [keys_objectOf (hc.fields.nodup_iff.mp hd)]
    exact hc.fields.symm
  · rw [get?_objectOf]
    cases hlast : lastNamed o.properties k with
    | none =>
      have hk : k ∉ x.fields.keys := by
        rw [hc.fields.mem_iff]
        exact lastNamed_eq_none_iff.mp hlast
      rw [Data.ObjectOf.get?, Dict.get?_eq_none_iff.mpr hk]
      exact .none
    | some q =>
      obtain ⟨hq, rfl⟩ := mem_of_lastNamed hlast
      exact hrel q hq

theorem exists_copyChoice? {x : Choice} (hslots : x.slots.length = c.variants.length)
    (ih : ∀ i w z, c.variants[i]? = some w → x.get? i = some z →
      ∃ y, t.copy? w.plan z = some y ∧ Data.Faithful y z) :
    ∃ y, t.copyChoice? c x = some y ∧ Data.Faithful (.choice y) (.choice x) := by
  have hcopies : ∀ i w, c.variants[i]? = some w → ∃ s, t.copySlot? w.plan (x.get? i) = some s ∧
      Option.Rel Data.Faithful s (x.get? i) := fun i w hw => exists_copySlot? fun z => ih i w z hw
  have hss : ∃ ss, t.copySlots? c.variants x 0 = some ss := exists_mapM fun w hw =>
    (hcopies w.2 w.1 (List.mem_zipIdx_iff_getElem?.mp hw)).imp fun _ h => h.1
  obtain ⟨ss, hss⟩ := hss
  have hcopy : t.copyChoice? c x = some ⟨ss⟩ := by rw [copyChoice?, hss, Option.map_some]
  obtain ⟨hlength, hget⟩ := copyChoice?_eq_some_iff.mp hcopy
  refine ⟨⟨ss⟩, hcopy, Data.faithful_choice (hlength.trans hslots.symm) fun i => ?_⟩
  cases hw : c.variants[i]? with
  | none =>
    have hi := List.getElem?_eq_none_iff.mp hw
    rw [Data.ChoiceOf.get?, Data.ChoiceOf.get?, List.getElem?_eq_none (hlength ▸ hi),
      List.getElem?_eq_none (hslots ▸ hi)]
    exact .none
  | some w =>
    obtain ⟨s, hs, hrel⟩ := hcopies i w hw
    rw [hget i w hw] at hs
    cases hs
    exact hrel

/-- Data that `Conforms` has a `Faithful` copy. -/
theorem exists_copy? {x : Data} (hc : t.Conforms p x) (hr : x.Regular) :
    ∃ y, t.copy? p x = some y ∧ Data.Faithful y x := by
  induction hc with
  | leaf h => exact ⟨_, copy?_of_holdsLeaf h, .refl _⟩
  | array hs content ih =>
    have hitems := exists_forall₂ fun x hx =>
      exists_copyItem? (content x hx) (ih x hx (hr.part (.item hx)))
    obtain ⟨ys, hys⟩ := hitems
    refine ⟨.array ys, ?_, Data.faithful_array (hys.flip.imp fun _ _ h => h.2)⟩
    rw [copy?_array hs, mapM_eq_some_iff.mpr (hys.imp fun _ _ h => h.1), Option.map_some]
  | @object p o x hs fields present content extras typed ih ihx =>
    have hc := (conforms_object_iff hs).mp (.object hs fields present content extras typed)
    obtain ⟨hd, hdx⟩ := hr x .refl
    obtain ⟨y, hy, hyx⟩ := exists_copyObject? hc hd hdx
      (fun q hq z hz => ih q hq z hz (hr.part (.field hz)))
      (fun a d ha hd r hr' => ihx a d ha hd r hr' (hr.part (.extra hd hr')))
    exact ⟨.object y, by rw [copy?_object hs, hy, Option.map_some], hyx⟩
  | choice hs slots _ _ ih =>
    obtain ⟨y, hy, hyx⟩ := exists_copyChoice? slots fun i w z hw hz => ih i w z hw hz (hr.part (.slot hz))
    exact ⟨.choice y, by rw [copy?_choices hs, hy, Option.map_some], hyx⟩

/-! ## Objects and choices -/

/-- Copying of objects and choices. A copy is copied as it stands, whatever it was made of. What
conforms has a copy, which is `Faithful` to it: slots of enumerations without a member, optional
fields that are absent, slots of choices that are empty or too many, and extra properties are kept.
-/
structure CopiesFaithfully (t : Table) : Prop where
  object : ∀ o x y place, t.cloneObject o x place = .ok y →
    ∀ place', t.cloneObject o y place' = .ok y
  choice : ∀ c x y place, t.cloneChoice c x place = .ok y →
    ∀ place', t.cloneChoice c y place' = .ok y
  conformingObject : ∀ o x, t.ConformsObject o x → Data.Regular (.object x) →
    ∀ place, ∃ y, t.cloneObject o x place = .ok y ∧ Data.Faithful (.object y) (.object x)
  conformingChoice : ∀ c x, t.ConformsChoice c x → Data.Regular (.choice x) →
    ∀ place, ∃ y, t.cloneChoice c x place = .ok y ∧ Data.Faithful (.choice y) (.choice x)

theorem copiesFaithfully (t : Table) : t.CopiesFaithfully where
  object o x y place h place' := by
    rw [cloneObject_eq_ok_iff] at h ⊢
    exact copyObject?_of_copyObject? (fun z _ => copy?_of_copy?) h
  choice c x y place h place' := by
    rw [cloneChoice_eq_ok_iff] at h ⊢
    exact copyChoice?_of_copyChoice? (fun z _ => copy?_of_copy?) h
  conformingObject o x hc hr place := by
    obtain ⟨hd, hdx⟩ := hr x .refl
    obtain ⟨y, hy, hyx⟩ := exists_copyObject? hc hd hdx
      (fun q hq z hz => exists_copy? ((hc.slots q hq).content z hz) (hr.part (.field hz)))
      (fun a d ha hd r hr' => exists_copy? (hc.typed a d ha hd r hr') (hr.part (.extra hd hr')))
    exact ⟨y, cloneObject_eq_ok_iff.mpr hy, hyx⟩
  conformingChoice c x hc hr place := by
    obtain ⟨y, hy, hyx⟩ := exists_copyChoice? hc.slots fun i w z hw hz =>
      exists_copy? (hc.content i w z hw hz) (hr.part (.slot hz))
    exact ⟨y, cloneChoice_eq_ok_iff.mpr hy, hyx⟩

end Table

/-! ## An offer of the shop

Its size has no member, its note is absent, its price has both variants, and a property is added to
it. -/

namespace Shop

def offerPlan : ObjectPlan where
  name := "Offer"
  properties := [⟨"size", false, .inline (.enumeration ⟨"Size", ["small", "large"]⟩)⟩,
    ⟨"note", true, .inline .string⟩, ⟨"price", false, .named 2⟩]
  additional := some (.inline .integer)

def prices : Choice := ⟨[some (.integer 5), some (.int64 5)]⟩

/-- The fields are not in the order of the plan. -/
def offer : Object where
  fields := ⟨[("price", some (.choice prices)), ("note", none), ("size", some (.enumeration .none))]⟩
  extras := .typed ⟨[("left", .integer 3)]⟩

theorem conformsChoice_prices (t : Table) (name label label' : String) :
    t.ConformsChoice ⟨name, [⟨label, .inline .integer⟩, ⟨label', .inline .int64⟩]⟩ prices where
  slots := rfl
  present i w hw _ := by
    rcases i with _ | _ | i
    · exact Option.some_ne_none _
    · exact Option.some_ne_none _
    · cases hw
  content i w y hw hy := by
    rcases i with _ | _ | i
    · cases hw
      cases hy
      exact .leaf (by rw [Table.shape]; rfl)
    · cases hw
      cases hy
      exact .leaf (by rw [Table.shape]; rfl)
    · cases hw

theorem conformsObject_offer {c : Codec} (h : Codec.generate registry {} "shop" = .ok c) :
    c.table.ConformsObject offerPlan offer where
  fields := by decide
  slots := by
    obtain ⟨name, label, label', hs⟩ := shape_price h
    have hnote : c.table.isEnum (.inline .string) = false := by
      rw [Bool.eq_false_iff]
      intro henum
      obtain ⟨e, he⟩ := Table.isEnum_iff.mp henum
      rw [Table.shape] at he
      cases he
    simp only [offerPlan, List.forall_mem_cons]
    refine ⟨?_, ?_, ?_, List.forall_mem_nil _⟩
    · exact Table.conformsSlot_some (.leaf (by rw [Table.shape]; rfl))
    · constructor
      · intro hq
        simp [hnote] at hq
      · intro y hy
        cases hy
    · exact Table.conformsSlot_some ((Table.conforms_choice_iff hs).mpr (conformsChoice_prices _ _ _ _))
  extras := by
    have hany : c.table.shape (.inline .integer) ≠ .any := by
      rw [Table.shape]
      intro hs
      cases hs
    exact Table.holdsExtras_typed rfl hany _
  typed a d ha hd e he := by
    cases ha
    cases hd
    cases List.mem_singleton.mp he
    exact .leaf (by rw [Table.shape]; rfl)

theorem regular_prices : Data.Regular (.choice prices) := by
  refine Data.regular_of_parts nofun fun y hy => ?_
  cases hy with
  | @slot _ i _ h =>
    rcases i with _ | _ | i
    · cases h
      exact Data.regular_of_isScalar rfl
    · cases h
      exact Data.regular_of_isScalar rfl
    · cases h

theorem regular_offer : Data.Regular (.object offer) := by
  refine Data.regular_of_parts (fun o ho => ?_) fun y hy => ?_
  · cases ho
    refine ⟨by rw [Dict.Distinct]; decide, fun d hd => ?_⟩
    cases hd
    exact List.nodup_singleton _
  · cases hy with
    | field h =>
      have hmem := Dict.mem_of_get? (Option.join_eq_some_iff.mp h)
      simp only [offer, List.mem_cons, Prod.mk.injEq, Option.some.injEq, reduceCtorEq, and_false,
        List.not_mem_nil, or_false, false_or] at hmem
      rcases hmem with ⟨-, rfl⟩ | ⟨-, rfl⟩
      · exact regular_prices
      · exact Data.regular_of_isScalar rfl
    | extra hd he =>
      cases hd
      cases List.mem_singleton.mp he
      exact Data.regular_of_isScalar rfl

end Shop

theorem Table.copiesFaithfully_offer : ∃ c p, Codec.generate Shop.registry {} "shop" = .ok c ∧
    c.table.shape (.named 2) = .choices p ∧ c.table.ConformsChoice p Shop.prices ∧
    (∃ y, c.table.cloneChoice p Shop.prices "" = .ok y ∧ Data.Faithful (.choice y) (.choice Shop.prices)) ∧
    c.table.ConformsObject Shop.offerPlan Shop.offer ∧ Data.Regular (.object Shop.offer) ∧
    ∃ y, c.table.cloneObject Shop.offerPlan Shop.offer "" = .ok y ∧
      Data.Faithful (.object y) (.object Shop.offer) ∧ c.table.cloneObject Shop.offerPlan y "" = .ok y := by
  obtain ⟨c, hc⟩ := Shop.exists_codec
  obtain ⟨name, label, label', hs⟩ := Shop.shape_price hc
  have hprices := Shop.conformsChoice_prices c.table name label label'
  have hoffer := Shop.conformsObject_offer hc
  have hcopies := copiesFaithfully c.table
  obtain ⟨y, hy, hfaithful⟩ := hcopies.conformingObject _ _ hoffer Shop.regular_offer ""
  exact ⟨c, _, hc, hs, hprices, hcopies.conformingChoice _ _ hprices Shop.regular_prices "", hoffer,
    Shop.regular_offer, y, hy, hfaithful, hcopies.object _ _ _ _ hy ""⟩

end Interchange
