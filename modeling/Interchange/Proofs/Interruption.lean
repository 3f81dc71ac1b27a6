import Interchange.Proofs.Overwriting

/-! # Runs that end at a property

The properties before it have been read, and those behind it have not been looked at (`ReadUpTo`).
Its own slot depends on the shape of its plan (`leftover?`): of a list of enumeration members the
first ones are kept, other parts are left alone, and what has no parts is lost where it may be
absent. `Stopped` puts both together.
-/

namespace Interchange

open Plan Populate

namespace Data.ObjectOf

variable {x : Object} {name k : String}

/-- Writes a slot by `put`, or makes sure by `reserve` that there is one. -/
def touch (x : Object) (name : String) : Option (Option Data) → Object
  | some slot => x.put name slot
  | none => x.reserve name

theorem reserve_of_mem (h : name ∈ x.fields.keys) : x.reserve name = x :=
  if_pos (Dict.contains_eq_true_iff.mpr h)

theorem keys_touch (h : name ∈ x.fields.keys) (s : Option (Option Data)) :
    (x.touch name s).fields.keys = x.fields.keys := by
  cases s with
  | none => rw [touch, reserve_of_mem h]
  | some slot => rw [touch, put, Dict.keys_insert, if_pos h]

theorem get?_touch_self (h : name ∈ x.fields.keys) (s : Option (Option Data)) :
    (x.touch name s).fields.get? name = s.or (x.fields.get? name) := by
  cases s with
  | none => rw [touch, reserve_of_mem h, Option.none_or]
  | some slot => exact Dict.get?_insert_self x.fields name slot

theorem get?_touch_ne (h : name ∈ x.fields.keys) (hk : k ≠ name) (s : Option (Option Data)) :
    (x.touch name s).fields.get? k = x.fields.get? k := by
  cases s with
  | none => rw [touch, reserve_of_mem h]
  | some slot => exact Dict.get?_insert_ne x.fields slot hk

theorem extras_touch (x : Object) (name : String) (s : Option (Option Data)) :
    (x.touch name s).extras = x.extras := by
  cases s with
  | none =>
    rw [touch, reserve]
    split <;> rfl
  | some slot => rfl

end Data.ObjectOf

/-! ## Refused values -/

/-- The members that a list starts with, up to the first value that is none: what `enumItems` keeps.
-/
def Plan.EnumPlan.leading (e : EnumPlan) (vs : List Value) : List EnumValue :=
  (vs.takeWhile fun v => (e.member? v).isSome).filterMap e.member?

theorem fst_enumItems (e : EnumPlan) (key : Option String) (i : Nat) (vs : List Value) :
    (enumItems e key i vs).1 = (e.leading vs).map .enumeration := by
  induction vs generalizing i with
  | nil => rfl
  | cons v vs ih =>
    have hv := toOption_enumValue e none v
    rw [enumItems, EnumPlan.leading, List.takeWhile_cons]
    cases hm : enumValue e none v with
    | error f =>
      rw [hm] at hv
      rw [← hv]
      rfl
    | ok m =>
      rw [hm] at hv
      simp only [← hv, toOption_ok, Option.isSome_some, if_true, List.filterMap_cons, List.map_cons]
      rw [ih (i + 1)]
      rfl

theorem fst_enumList (e : EnumPlan) (key : Option String) (v : Value) :
    (enumList e key v).1 = (e.leading (v.list?.getD [])).map .enumeration := by
  cases v with
  | list vs => exact fst_enumItems e key 0 vs
  | null | bool | int | double | string | binary | dict => rfl

namespace Table

variable {t : Table} {o : ObjectPlan} {q : PropertyPlan} {u : Option Value} {v : Value} {d : Dict Value}
  {out : Object} {j : Nat} {f : Fault} {slots : List (Option Data)}

/-- What is left of a refused value in the slot of its property; `none` where the slot stays as it
is. -/
def leftover? (t : Table) (q : PropertyPlan) (v : Value) : Option (Option Data) :=
  match t.shape q.plan with
  | .enumeration _ => some (some (.enumeration .none))
  | .array items =>
    (t.enum? items).map fun e => some (.array ((e.leading (v.list?.getD [])).map .enumeration))
  | .object _ | .choices _ => none
  | _ => if q.optional then some none else none

/-- A value that is refused without having been read in part by `direct?`. -/
theorem refuse_eq (v : Value) (h : direct? t q v out = none) :
    refuse t q out = out.touch q.name (t.leftover? q v) := by
  rw [direct?] at h
  rw [refuse, leftover?]
  cases hs : t.shape q.plan with
  | array items =>
    simp only [hs, Option.map_eq_none_iff] at h
    simp only [h, Option.map_none]
    rfl
  | enumeration | object | choices => rfl
  | boolean | integer | int64 | double | string | binary | any | function =>
    simp only
    split <;> rfl

theorem fst_populateProperty_of_refused (h : t.readSlot? q (some v) = none) (out : Object) :
    (t.populateProperty q (some v) out).1 = out.touch q.name (t.leftover? q v) := by
  rw [readSlot?] at h
  cases hi : t.ignores q with
  | true => simp [hi] at h
  | false =>
    simp only [hi, Bool.false_eq_true, if_false, Option.map_eq_none_iff] at h
    rw [populateProperty]
    cases hd : direct? t q v out with
    | none =>
      obtain ⟨f, hf⟩ := convert_eq_error_of_none h (some q.name)
      simp only [hf]
      exact refuse_eq v hd
    | some r =>
      simp only
      unfold direct? at hd
      split at hd
      · rename_i items hs
        obtain ⟨e, he, rfl⟩ := Option.map_eq_some_iff.mp hd
        simp only [leftover?, hs, he, Option.map_some, fst_enumList]
        rfl
      · rename_i hs
        simp only [ignores, hs, ShapeOf.isFunction, Bool.and_true] at hi
        simp [hi] at hd
      · cases hd

/-- Where a value is refused, an enumeration has no member whether `resetEnums` has reset it or not.
-/
theorem leftover?_or_reset (q : PropertyPlan) (v : Value) (old : Option (Option Data)) :
    (t.leftover? q v).or
      (if q.optional && t.isEnum q.plan then some (some (.enumeration .none)) else old) =
      (t.leftover? q v).or old := by
  cases he : t.isEnum q.plan with
  | false => rw [Bool.and_false, if_neg Bool.false_ne_true]
  | true =>
    obtain ⟨e, hs⟩ := isEnum_iff.mp he
    rw [leftover?, hs, Option.some_or, Option.some_or]

/-- A missing value leaves the object as it was when the run came to it. -/
theorem fst_populateProperty_of_missing (h : t.slotFault? q none = some f) (out : Object) :
    q.optional = false ∧ (t.populateProperty q none out).1 = out := by
  rw [slotFault?] at h
  split at h
  · cases h
  · rename_i hq
    rw [populateProperty, if_neg hq]
    exact ⟨Bool.eq_false_iff.mpr hq, rfl⟩

theorem exists_slotFault?_iff : (∃ f, t.slotFault? q u = some f) ↔ t.readSlot? q u = none := by
  constructor
  · rintro ⟨f, hf⟩
    rw [Option.eq_none_iff_forall_ne_some]
    intro slot hslot
    have hfine := snd_populateProperty (t := t) q u ⟨∅, .closed⟩
    rw [populateProperty_of_some hslot, hf] at hfine
    cases hfine
  · intro h
    obtain ⟨f, hf⟩ := populateProperty_of_none h ⟨∅, .closed⟩
    rw [snd_populateProperty] at hf
    exact ⟨f, hf⟩

/-! ## Where a run ends -/

theorem populateEach_append (qs rs : List (PropertyPlan × Option Value)) (out : Object) :
    t.populateEach (qs ++ rs) out = (t.populateEach qs out).andThen (t.populateEach rs) := by
  induction qs generalizing out with
  | nil => rfl
  | cons r qs ih =>
    obtain ⟨q, u⟩ := r
    rw [List.cons_append, populateEach, populateEach]
    obtain ⟨s, f⟩ := t.populateProperty q u out
    cases f with
    | none => exact ih s
    | some f => rfl

/-- A run that ends at a property: those before it have been read. -/
theorem populateObject_of_split {before after : List (PropertyPlan × Option Value)}
    (h : sources o d = before ++ (q, u) :: after) (hs : t.readSlots? before = some slots)
    (hf : t.slotFault? q u = some f) (out : Object) :
    t.populateObject o d out =
      ((t.populateProperty q u (out.enter (t.resets o.properties ++ named before slots))).1, some f) := by
  have hq : (t.populateProperty q u (out.enter (t.resets o.properties ++ named before slots))).2 =
      some f := by rw [snd_populateProperty, hf]
  rw [populateObject_eq, h, populateEach_append, populateEach_enter hs]
  change ((t.populateProperty q u _).andThen (t.populateEach after)).andThen _ = _
  -- Behind the fault neither the other properties nor the extra ones are looked at.
  generalize t.populateProperty q u _ = r at hq
  obtain ⟨s, g⟩ := r
  cases hq
  rfl

theorem drop_eq_of_getElem? (h : o.properties[j]? = some q) :
    o.properties.drop j = q :: o.properties.drop (j + 1) := by
  rw [List.drop_eq_getElem?_toList_append, h]
  rfl

theorem properties_eq_of_getElem? (h : o.properties[j]? = some q) :
    o.properties = o.properties.take j ++ q :: o.properties.drop (j + 1) := by
  rw [← drop_eq_of_getElem? h, List.take_append_drop]

theorem sources_eq_of_getElem? (h : o.properties[j]? = some q) (d : Dict Value) :
    sources o d = (sources o d).take j ++ (q, d.get? q.name) :: (sources o d).drop (j + 1) := by
  have hmap := congrArg (List.map fun q => (q, d.get? q.name)) (properties_eq_of_getElem? h)
  rwa [List.map_append, List.map_cons, List.map_take, List.map_drop] at hmap

/-- The run of `populateProperties` goes well up to property `j`, where it ends with the fault `f`.
-/
structure FailsAt (t : Table) (o : ObjectPlan) (d : Dict Value) (out : Object) (j : Nat) (f : Fault) :
    Prop where
  before : (t.populateProperties (o.properties.take j) d (resetEnums t o.properties out)).2 = none
  here : (t.populateProperties (o.properties.take (j + 1)) d (resetEnums t o.properties out)).2 = some f

theorem FailsAt.exists_readSlots? (h : t.FailsAt o d out j f) :
    ∃ slots, t.readSlots? ((sources o d).take j) = some slots := by
  have hbefore := h.before
  rw [populateProperties_eq, List.map_take] at hbefore
  exact exists_readSlots?_of_populateEach hbefore

theorem failsAt_iff : t.FailsAt o d out j f ↔ ∃ q, o.properties[j]? = some q ∧
    t.slotFault? q (d.get? q.name) = some f ∧
    ∀ p ∈ o.properties.take j, t.slotFault? p (d.get? p.name) = none := by
  have hrun : ∀ ps, (t.populateProperties ps d (resetEnums t o.properties out)).2 =
      ps.findSome? fun q => t.slotFault? q (d.get? q.name) := by
    intro ps
    rw [populateProperties_eq, snd_populateEach, List.findSome?_map]
    rfl
  constructor
  · intro h
    have hbefore := h.before
    have hhere := h.here
    rw [hrun] at hbefore hhere
    rw [List.take_add_one, List.findSome?_append, hbefore, Option.none_or] at hhere
    cases hq : o.properties[j]? with
    | none =>
      rw [hq] at hhere
      cases hhere
    | some q =>
      rw [hq, Option.toList_some, List.findSome?_singleton] at hhere
      exact ⟨q, rfl, hhere, List.findSome?_eq_none_iff.mp hbefore⟩
  · rintro ⟨q, hq, hf, hbefore⟩
    rw [← List.findSome?_eq_none_iff] at hbefore
    refine ⟨(hrun _).trans hbefore, ?_⟩
    rw [hrun, List.take_add_one, List.findSome?_append, hbefore, Option.none_or, hq, Option.toList_some,
      List.findSome?_singleton, hf]

theorem FailsAt.snd_populateObject (h : t.FailsAt o d out j f) :
    (t.populateObject o d out).2 = some f := by
  obtain ⟨q, hq, hf, -⟩ := failsAt_iff.mp h
  obtain ⟨slots, hs⟩ := h.exists_readSlots?
  rw [populateObject_of_split (sources_eq_of_getElem? hq d) hs hf]

/-! ## What a run leaves -/

theorem exists_of_mem_resets {ps : List PropertyPlan} {e : String × Option Data} (h : e ∈ t.resets ps) :
    ∃ q ∈ ps, (q.optional && t.isEnum q.plan) = true ∧ e = (q.name, some (.enumeration .none)) := by
  obtain ⟨q, hq, rfl⟩ := List.mem_map.mp h
  exact ⟨q, (List.mem_filter.mp hq).1, (List.mem_filter.mp hq).2, rfl⟩

/-- Before anything is read, optional enumerations have lost their members: what the `resets` leave.
-/
theorem get?_enter_resets {ps : List PropertyPlan} (hn : (ps.map (·.name)).Nodup) (hq : q ∈ ps)
    (fields : Dict (Option Data)) :
    (fields.enter (t.resets ps)).get? q.name =
      if q.optional && t.isEnum q.plan then some (some (.enumeration .none)) else fields.get? q.name := by
  split
  · rename_i hreset
    have hsub : List.Sublist ((t.resets ps).map (·.1)) (ps.map (·.name)) := by
      rw [resets, List.map_map]
      exact List.filter_sublist.map _
    refine Dict.get?_enter_of_mem (hn.sublist hsub) ?_ fields
    exact List.mem_map.mpr ⟨q, List.mem_filter.mpr ⟨hq, hreset⟩, rfl⟩
  · rename_i hkeep
    refine Dict.get?_enter_of_not_mem (fun hmem => hkeep ?_) fields
    obtain ⟨e, he, hname⟩ := List.mem_map.mp hmem
    obtain ⟨p, hp, hreset, rfl⟩ := exists_of_mem_resets he
    cases List.inj_on_of_nodup_map hn hp hq hname
    exact hreset

/-- What a property holds once its entry has been read, case by case as `readSlot?` has it. -/
inductive Converted (t : Table) (q : PropertyPlan) : Option Value → Option Data → Prop
  | absent (h : q.optional = true) : Converted t q none (t.absentSlot q.plan)
  | ignored {v : Value} (h : q.optional = true) (hs : t.shape q.plan = .function false) :
      Converted t q (some v) (some (.function (.dict ∅)))
  | read {v : Value} {x : Data} (h : t.convert q.plan (some q.name) v = .ok x) :
      Converted t q (some v) (some x)

theorem converted_of_readSlot? {slot : Option Data} (h : t.readSlot? q u = some slot) :
    t.Converted q u slot := by
  cases u with
  | none =>
    rw [readSlot?] at h
    split at h
    · cases h
      exact .absent ‹_›
    · cases h
  | some v =>
    rw [readSlot?] at h
    split at h
    · rename_i hi
      rw [ignores, Bool.and_eq_true, ShapeOf.isFunction_iff] at hi
      cases h
      exact .ignored hi.1 hi.2
    · obtain ⟨x, hx, rfl⟩ := Option.map_eq_some_iff.mp h
      exact .read (convert_eq_ok_iff.mpr hx)

/-- What a run leaves of an object when it has read the properties before `j` and has not come to
those from `k` on. -/
structure ReadUpTo (t : Table) (o : ObjectPlan) (d : Dict Value) (j k : Nat) (out out' : Object) :
    Prop where
  keys : out'.fields.keys = out.fields.keys
  before : ∀ q ∈ o.properties.take j,
    ∃ slot, out'.fields.get? q.name = some slot ∧ t.Converted q (d.get? q.name) slot
  after : ∀ q ∈ o.properties.drop k, out'.fields.get? q.name =
    if q.optional && t.isEnum q.plan then some (some (.enumeration .none)) else out.fields.get? q.name
  others : ∀ name ∉ o.properties.map (·.name), out'.fields.get? name = out.fields.get? name
  extras : out'.extras = out.extras

/-- What a run leaves of an object that ends at property `j`: `ReadUpTo` of all others, and what is
left of this one. -/
structure Stopped (t : Table) (o : ObjectPlan) (d : Dict Value) (j : Nat) (out out' : Object) : Prop
    extends t.ReadUpTo o d j (j + 1) out out' where
  missing : ∀ q, o.properties[j]? = some q → d.get? q.name = none →
    out'.fields.get? q.name = out.fields.get? q.name
  refused : ∀ q v, o.properties[j]? = some q → d.get? q.name = some v →
    out'.fields.get? q.name = (t.leftover? q v).or (out.fields.get? q.name)

theorem map_name_take_sources (o : ObjectPlan) (d : Dict Value) (j : Nat) :
    ((sources o d).take j).map (·.1.name) = (o.properties.take j).map (·.name) := by
  rw [List.map_take, map_name_sources, List.map_take]

theorem readUpTo_of_readSlots? (hn : (o.properties.map (·.name)).Nodup)
    (hout : ∀ q ∈ o.properties, q.name ∈ out.fields.keys)
    (hs : t.readSlots? ((sources o d).take j) = some slots) :
    t.ReadUpTo o d j j out (out.enter (t.resets o.properties ++ named ((sources o d).take j) slots)) := by
  have hnames : (named ((sources o d).take j) slots).map (·.1) = (o.properties.take j).map (·.name) := by
    rw [map_fst_named (readSlots?_length hs), map_name_take_sources]
  have hget : ∀ k ∉ (o.properties.take j).map (·.name),
      (out.fields.enter (t.resets o.properties ++ named ((sources o d).take j) slots)).get? k =
        (out.fields.enter (t.resets o.properties)).get? k := by
    intro k hk
    rw [Dict.enter_append]
    exact Dict.get?_enter_of_not_mem (by rwa [hnames]) _
  refine ⟨Dict.keys_enter_of_subset fun e he => ?_, fun q hq => ?_, fun q hq => ?_, fun k hk => ?_, rfl⟩
  · rcases List.mem_append.mp he with he | he
    · obtain ⟨q, hq, -, rfl⟩ := exists_of_mem_resets he
      exact hout q hq
    · obtain ⟨q, hq, hname⟩ := List.mem_map.mp (hnames ▸ List.mem_map.mpr ⟨e, he, rfl⟩)
      rw [← hname]
      exact hout q (List.mem_of_mem_take hq)
  · have hmem : (q, d.get? q.name) ∈ (sources o d).take j := by
      rw [sources, ← List.map_take]
      exact List.mem_map.mpr ⟨q, hq, rfl⟩
    obtain ⟨slot, hslot, hnamed⟩ := mem_named hs hmem
    refine ⟨slot, ?_, converted_of_readSlot? hslot⟩
    change (out.fields.enter _).get? q.name = some slot
    rw [Dict.enter_append]
    -- What is read is entered after the resets, so it counts also for an optional enumeration.
    refine Dict.get?_enter_of_mem ?_ hnamed _
    rw [hnames, List.map_take]
    exact hn.sublist (List.take_sublist _ _)
  · have hdisjoint := List.disjoint_take_drop hn (Nat.le_refl j)
    have hdrop : q.name ∈ (o.properties.map (·.name)).drop j := by
      rw [← List.map_drop]
      exact List.mem_map.mpr ⟨q, hq, rfl⟩
    have hk : q.name ∉ (o.properties.take j).map (·.name) := by
      rw [List.map_take]
      exact fun htake => hdisjoint htake hdrop
    exact (hget q.name hk).trans (get?_enter_resets hn (List.mem_of_mem_drop hq) out.fields)
  · have hk' : k ∉ (o.properties.take j).map (·.name) := by
      rw [List.map_take]
      exact fun h => hk (List.mem_of_mem_take h)
    refine (hget k hk').trans (Dict.get?_enter_of_not_mem (fun h => hk ?_) out.fields)
    obtain ⟨e, he, rfl⟩ := List.mem_map.mp h
    obtain ⟨q, hq, -, rfl⟩ := exists_of_mem_resets he
    exact List.mem_map.mpr ⟨q, hq, rfl⟩

theorem name_ne_of_getElem? (hn : (o.properties.map (·.name)).Nodup) (hq : o.properties[j]? = some q)
    {p : PropertyPlan} (hp : p ∈ o.properties.take j ++ o.properties.drop (j + 1)) : p.name ≠ q.name := by
  rw [properties_eq_of_getElem? hq, List.map_append, List.map_cons, List.nodup_middle, List.nodup_cons,
    ← List.map_append] at hn
  exact fun hname => hn.1 (List.mem_map.mpr ⟨p, hp, hname⟩)

/-- The step at which a run ends concerns the slot of its property only: `touch` keeps `ReadUpTo`.
-/
theorem ReadUpTo.touch {s : Object} (h : t.ReadUpTo o d j j out s) (hn : (o.properties.map (·.name)).Nodup)
    (hq : o.properties[j]? = some q) (hs : q.name ∈ s.fields.keys) (slot : Option (Option Data)) :
    t.ReadUpTo o d j (j + 1) out (s.touch q.name slot) := by
  have hget : ∀ name ≠ q.name, (s.touch q.name slot).fields.get? name = s.fields.get? name :=
    fun name hne => Data.ObjectOf.get?_touch_ne hs hne slot
  refine ⟨(Data.ObjectOf.keys_touch hs slot).trans h.keys, fun p hp => ?_, fun p hp => ?_,
    fun name hname => ?_, (Data.ObjectOf.extras_touch s q.name slot).trans h.extras⟩
  · rw [hget p.name (name_ne_of_getElem? hn hq (List.mem_append_left _ hp))]
    exact h.before p hp
  · rw [hget p.name (name_ne_of_getElem? hn hq (List.mem_append_right _ hp))]
    exact h.after p (List.drop_subset_drop_left _ (Nat.le_succ j) hp)
  · have hmem : q.name ∈ o.properties.map (·.name) :=
      List.mem_map.mpr ⟨q, List.mem_of_getElem? hq, rfl⟩
    rw [hget name fun hne => hname (hne ▸ hmem)]
    exact h.others name hname

theorem ReadUpTo.stopped {s : Object} (h : t.ReadUpTo o d j j out s)
    (hn : (o.properties.map (·.name)).Nodup) (hq : o.properties[j]? = some q)
    (hs : q.name ∈ s.fields.keys) (hf : t.slotFault? q (d.get? q.name) = some f) :
    t.Stopped o d j out (t.populateProperty q (d.get? q.name) s).1 := by
  have hdrop : q ∈ o.properties.drop j := by
    rw [drop_eq_of_getElem? hq]
    exact List.mem_cons_self
  have hslot := h.after q hdrop
  cases hu : d.get? q.name with
  | none =>
    rw [hu] at hf
    obtain ⟨hopt, hfst⟩ := fst_populateProperty_of_missing hf s
    have hlater : t.ReadUpTo o d j (j + 1) out s :=
      { h with after := fun p hp => h.after p (List.drop_subset_drop_left _ (Nat.le_succ j) hp) }
    rw [hfst]
    refine ⟨hlater, fun q' hq' _ => ?_, fun q' v hq' hv => ?_⟩
    · cases hq.symm.trans hq'
      rw [hslot, hopt, Bool.false_and, if_neg Bool.false_ne_true]
    · cases hq.symm.trans hq'
      cases hu.symm.trans hv
  | some v =>
    rw [hu] at hf
    rw [fst_populateProperty_of_refused (exists_slotFault?_iff.mp ⟨f, hf⟩)]
    refine ⟨h.touch hn hq hs _, fun q' hq' hnone => ?_, fun q' w hq' hw => ?_⟩
    · cases hq.symm.trans hq'
      cases hu.symm.trans hnone
    · cases hq.symm.trans hq'
      cases hu.symm.trans hw
      rw [Data.ObjectOf.get?_touch_self hs, hslot, leftover?_or_reset]

theorem take_sources_congr {d' : Dict Value}
    (h : ∀ q ∈ o.properties.take j, d'.get? q.name = d.get? q.name) :
    (sources o d').take j = (sources o d).take j := by
  rw [sources, sources, ← List.map_take, ← List.map_take]
  exact List.map_congr_left fun q hq => by rw [h q hq]

/-- A run that ends at a property is `Stopped` there, and it would have been so whatever the
dictionary held for the properties behind it. -/
theorem stopped_of_failsAt (hn : (o.properties.map (·.name)).Nodup)
    (hout : ∀ q ∈ o.properties, out.fields.contains q.name = true) (h : t.FailsAt o d out j f) :
    (t.populateObject o d out).2 = some f ∧ t.Stopped o d j out (t.populateObject o d out).1 ∧
      ∀ d', (∀ q ∈ o.properties.take (j + 1), d'.get? q.name = d.get? q.name) →
        t.populateObject o d' out = t.populateObject o d out := by
  obtain ⟨q, hq, hf, -⟩ := failsAt_iff.mp h
  obtain ⟨slots, hs⟩ := h.exists_readSlots?
  have hrun := populateObject_of_split (sources_eq_of_getElem? hq d) hs hf out
  refine ⟨h.snd_populateObject, ?_, fun d' hd' => ?_⟩
  · have hkeys : ∀ q ∈ o.properties, q.name ∈ out.fields.keys :=
      fun q hq => Dict.contains_eq_true_iff.mp (hout q hq)
    have hreach := readUpTo_of_readSlots? hn hkeys hs
    rw [hrun]
    apply hreach.stopped hn hq _ hf
    rw [hreach.keys]
    exact hkeys q (List.mem_of_getElem? hq)
  · have htake : (sources o d').take j = (sources o d).take j :=
      take_sources_congr fun p hp => hd' p (List.take_subset_take_left _ (Nat.le_succ j) hp)
    have hsame : d'.get? q.name = d.get? q.name := by
      refine hd' q ?_
      rw [List.take_add_one, hq]
      exact List.mem_append_right _ (List.mem_singleton.mpr rfl)
    have hrun' := sources_eq_of_getElem? hq d'
    rw [htake, hsame] at hrun'
    rw [hrun, populateObject_of_split hrun' hs hf]

end Table

/-! ## A palette

The second of three colors has no name that is known. -/

namespace Palette

def color : EnumPlan := ⟨"Color", ["red", "green", "blue"]⟩

def plan : ObjectPlan where
  name := "Palette"
  properties := [⟨"size", true, .inline .integer⟩,
    ⟨"colors", false, .inline (.array (.inline (.enumeration color)))⟩,
    ⟨"base", true, .inline (.enumeration color)⟩]
  additional := none

/-- No plan is named. -/
def table : Table where
  entries := []
  required := ⟨fun _ => 0, by simp [requiredEdges, planAt_of_le, requiredTargets, shapeRequired]⟩
  variant := ⟨fun _ => 0, by simp [variantEdges, planAt_of_le, variantTargets, shapeVariants]⟩

def given : Dict Value := ⟨[("colors", .list [.string "red", .string "pink", .string "blue"])]⟩

def used : Object where
  fields := ⟨[("size", some (.integer 3)), ("colors", some (.array [])),
    ("base", some (.enumeration (.member 2)))]⟩
  extras := .closed

theorem shape_color : table.shape (.inline (.enumeration color)) = .enumeration color := by
  rw [Table.shape]

theorem isEnum_color : table.isEnum (.inline (.enumeration color)) = true :=
  Table.isEnum_iff.mpr ⟨color, shape_color⟩

theorem failsAt_colors (out : Object) : table.FailsAt plan given out 1
    (.member (some "colors") 1 (.unknownMember none color "pink")) := by
  have htell : table.tellItem (.inline (.enumeration color)) (some "colors") = .member (some "colors") :=
    if_pos isEnum_color
  rw [Table.failsAt_iff]
  refine ⟨⟨"colors", false, .inline (.array (.inline (.enumeration color)))⟩, rfl, ?_, fun p hp => ?_⟩
  · change table.fault? _ (some "colors") (.list _) = _
    rw [Table.fault?_array (by rw [Table.shape]), Table.arrayFault?, htell]
    simp only [List.map_cons, Table.fault?_enumeration shape_color]
    rfl
  · cases List.mem_singleton.mp hp
    rfl

end Palette

theorem Table.stopped_of_failsAt_palette : (Palette.plan.properties.map (·.name)).Nodup ∧
    (∀ q ∈ Palette.plan.properties, Palette.used.fields.contains q.name = true) ∧
    Palette.table.FailsAt Palette.plan Palette.given Palette.used 1
      (.member (some "colors") 1 (.unknownMember none Palette.color "pink")) ∧
    ∃ out, Palette.table.populateObject Palette.plan Palette.given Palette.used =
        (out, some (.member (some "colors") 1 (.unknownMember none Palette.color "pink"))) ∧
      out.fields.get? "size" = some none ∧
      out.fields.get? "colors" = some (some (.array [.enumeration (.member 0)])) ∧
      out.fields.get? "base" = some (some (.enumeration .none)) := by
  have hn : (Palette.plan.properties.map (·.name)).Nodup := by decide
  have hout : ∀ q ∈ Palette.plan.properties, Palette.used.fields.contains q.name = true := by
    simp only [Palette.plan, List.forall_mem_cons]
    exact ⟨rfl, rfl, rfl, List.forall_mem_nil _⟩
  obtain ⟨hf, hstop, -⟩ := stopped_of_failsAt hn hout (Palette.failsAt_colors Palette.used)
  refine ⟨hn, hout, Palette.failsAt_colors Palette.used, _, Prod.ext rfl hf, ?_, ?_, ?_⟩
  · obtain ⟨slot, hslot, hconv⟩ := hstop.before ⟨"size", true, .inline .integer⟩ List.mem_cons_self
    change Converted _ _ none slot at hconv
    cases hconv
    rw [hslot, absentSlot, if_neg (by simp [isEnum, enum?, Table.shape])]
  · have hcolors := hstop.refused
      ⟨"colors", false, .inline (.array (.inline (.enumeration Palette.color)))⟩ _ rfl rfl
    rw [hcolors, leftover?, Table.shape]
    simp only [enum?_of_shape Palette.shape_color]
    rfl
  · have hbase := hstop.after ⟨"base", true, .inline (.enumeration Palette.color)⟩ List.mem_cons_self
    rw [hbase, Palette.isEnum_color]
    rfl

end Interchange
