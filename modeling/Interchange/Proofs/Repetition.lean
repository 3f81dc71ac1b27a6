import Interchange.Proofs.Interruption

/-! # Runs that are repeated

A run of `populateObject` that is given the same dictionary again ends as it did, and finds every
slot and every extra property as it would leave it, wherever it ends.
-/

namespace Interchange

open Plan Populate

namespace Data.ObjectOf

variable {x : Object} {name : String}

/-- Slots that are held as they were entered can be entered again: `enter` changes nothing. -/
theorem enter_of_fields {y : Object} {es : List (String × Option Data)}
    (h : x.fields = (y.enter es).fields) : x.enter es = x := by
  have hfields : x.fields.enter es = x.fields := by
    rw [h, enter, Dict.enter_enter]
  rw [enter, hfields]

theorem enter_enter (x : Object) (es : List (String × Option Data)) : (x.enter es).enter es = x.enter es :=
  enter_of_fields rfl

/-- A slot that is added leaves the other ones as they were entered. -/
theorem enter_put_of_not_mem {es : List (String × Option Data)} (h : name ∉ (x.enter es).fields.keys)
    (slot : Option Data) : ((x.enter es).put name slot).enter es = (x.enter es).put name slot := by
  have hfields : ((x.enter es).put name slot).fields.enter es = ((x.enter es).put name slot).fields := by
    refine Dict.enter_of_get? fun k v hk => ?_
    have hget : (x.enter es).fields.get? k = some v := by
      rw [enter, Dict.get?_enter, hk, Option.some_or]
    have hne : k ≠ name := by
      rintro rfl
      exact h (Dict.key_mem_of_mem (Dict.mem_of_get? hget))
    rw [put, Dict.get?_insert_ne _ _ hne, hget]
  rw [enter, hfields]

/-- What a run has entered, and then touched last by `touch`, is found so when it is repeated. -/
theorem touch_enter_touch (x : Object) (es : List (String × Option Data)) (name : String)
    (s : Option (Option Data)) :
    (((x.enter es).touch name s).enter es).touch name s = (x.enter es).touch name s := by
  cases s with
  | some slot =>
    have hput : ∀ y : Object, (y.enter es).put name slot = y.enter (es ++ [(name, slot)]) := by
      intro y
      rw [enter_append]
      rfl
    simp only [touch, hput, enter_enter]
  | none =>
    simp only [touch]
    by_cases hmem : name ∈ (x.enter es).fields.keys
    · rw [reserve_of_mem hmem, enter_enter, reserve_of_mem hmem]
    · -- The slot is added behind those that were entered, and is there when the run is repeated.
      have hput : (x.enter es).reserve name = (x.enter es).put name none :=
        if_neg fun h => hmem (Dict.contains_eq_true_iff.mp h)
      have hadded : name ∈ ((x.enter es).put name none).fields.keys :=
        Dict.key_mem_of_mem (Dict.mem_of_get? (Dict.get?_insert_self _ name none))
      rw [hput, enter_put_of_not_mem hmem, reserve_of_mem hadded]

end Data.ObjectOf

namespace Table

variable {t : Table} {o : ObjectPlan} {q : PropertyPlan} {u : Option Value} {d : Dict Value}

/-! ## Extra properties -/

/-- Enters typed extra properties in turn by `putTyped`. -/
def putAll (xs : List (String × Data)) (out : Object) : Object :=
  xs.foldl (fun out p => putTyped out p.1 p.2) out

theorem putAll_cons (p : String × Data) (xs : List (String × Data)) (out : Object) :
    putAll (p :: xs) out =
      { out with extras := .typed ((out.extras.typed?.getD ∅).enter (p :: xs)) } := by
  induction xs generalizing p out with
  | nil => rfl
  | cons p' xs ih =>
    change putAll (p' :: xs) (putTyped out p.1 p.2) = _
    rw [ih]
    rfl

theorem putAll_putAll (xs : List (String × Data)) (out : Object) :
    putAll xs (putAll xs out) = putAll xs out := by
  cases xs with
  | nil => rfl
  | cons p xs =>
    rw [putAll_cons, putAll_cons]
    simp only [Data.ExtrasOf.typed?, Option.getD_some, Dict.enter_enter]

/-- Which entries `populateExtras` reads does not depend on the object. -/
theorem exists_fst_populateExtras (a : Plan) (es : List (String × Value)) :
    ∃ xs, ∀ out, (t.populateExtras a es out).1 = putAll xs out := by
  induction es with
  | nil =>
    refine ⟨[], fun out => ?_⟩
    rw [populateExtras]
    rfl
  | cons e es ih =>
    obtain ⟨k, v⟩ := e
    obtain ⟨xs, hxs⟩ := ih
    cases hc : t.convert a (some k) v with
    | error f =>
      refine ⟨[], fun out => ?_⟩
      rw [populateExtras, hc]
      rfl
    | ok x =>
      refine ⟨(k, x) :: xs, fun out => ?_⟩
      rw [populateExtras, hc]
      exact hxs (putTyped out k x)

theorem populateExtras_populateExtras (a : Plan) (es : List (String × Value)) (out : Object) :
    t.populateExtras a es (t.populateExtras a es out).1 = t.populateExtras a es out := by
  obtain ⟨xs, hxs⟩ := exists_fst_populateExtras (t := t) a es
  apply Prod.ext
  · rw [hxs, hxs, putAll_putAll]
  · rw [snd_populateExtras, snd_populateExtras]

theorem mergeAny_mergeAny (hd : (Value.dict d).Regular) (out : Object) :
    mergeAny (mergeAny out d) d = mergeAny out d := by
  simp only [mergeAny, Data.ExtrasOf.any?, Option.getD_some, Value.merge_merge hd]

theorem populateRest_populateRest (hd : (Value.dict d).Regular) (o : ObjectPlan) (out : Object) :
    t.populateRest o d (t.populateRest o d out).1 = t.populateRest o d out := by
  cases ha : o.additional with
  | none =>
    rw [populateRest_closed ha, populateRest_closed ha]
    rfl
  | some a =>
    by_cases hs : t.shape a = .any
    · rw [populateRest_any ha hs, populateRest_any ha hs]
      exact congrArg Outcome.done (mergeAny_mergeAny hd out)
    · rw [populateRest_typed ha hs, populateRest_typed ha hs, populateExtras_populateExtras]

/-- Extra properties have no part in the fields. -/
theorem enter_populateRest (o : ObjectPlan) (d : Dict Value) (es : List (String × Option Data))
    (out : Object) :
    (t.populateRest o d (out.enter es)).1.enter es = (t.populateRest o d (out.enter es)).1 :=
  Data.ObjectOf.enter_of_fields (fields_populateRest o d (out.enter es))

/-! ## Objects -/

/-- Properties that cannot all be read have a first one that cannot. -/
theorem exists_split_of_readSlots? {qs : List (PropertyPlan × Option Value)} (h : t.readSlots? qs = none) :
    ∃ before q u after slots, qs = before ++ (q, u) :: after ∧ t.readSlots? before = some slots ∧
      t.readSlot? q u = none := by
  induction qs with
  | nil => cases h
  | cons r qs ih =>
    obtain ⟨q, u⟩ := r
    cases hslot : t.readSlot? q u with
    | none => exact ⟨[], q, u, qs, [], rfl, rfl, hslot⟩
    | some slot =>
      have hqs : t.readSlots? qs = none := by
        simp only [readSlots?, List.mapM_cons, hslot] at h ⊢
        cases hm : qs.mapM fun r => t.readSlot? r.1 r.2 with
        | none => rfl
        | some slots => simp [hm] at h
      obtain ⟨before, q', u', after, slots, rfl, hbefore, hnone⟩ := ih hqs
      refine ⟨(q, u) :: before, q', u', after, slot :: slots, rfl, ?_, hnone⟩
      simp only [readSlots?, List.mapM_cons, hslot] at hbefore ⊢
      simp [hbefore]

/-- The step at which a run ends is repeated, too: a refused property is left as `touch` leaves it.
-/
theorem populateProperty_enter (hnone : t.readSlot? q u = none) (es : List (String × Option Data))
    (out : Object) :
    (t.populateProperty q u ((t.populateProperty q u (out.enter es)).1.enter es)).1 =
      (t.populateProperty q u (out.enter es)).1 := by
  obtain ⟨f, hf⟩ := exists_slotFault?_iff.mpr hnone
  cases u with
  | none =>
    have hmissing := fun out => (fst_populateProperty_of_missing hf out).2
    rw [hmissing, hmissing, Data.ObjectOf.enter_enter]
  | some v =>
    simp only [fst_populateProperty_of_refused hnone]
    exact Data.ObjectOf.touch_enter_touch out es q.name (t.leftover? q v)

/-- A run over what the same run has left changes nothing and ends in the same way. -/
theorem populateObject_populateObject (hd : (Value.dict d).Regular) (o : ObjectPlan) (out : Object) :
    t.populateObject o d (t.populateObject o d out).1 = t.populateObject o d out := by
  cases hs : t.readSlots? (sources o d) with
  | some slots =>
    rw [populateObject_of_readSlots? hs, populateObject_of_readSlots? hs, enter_populateRest,
      populateRest_populateRest hd]
  | none =>
    obtain ⟨before, q, u, after, slots, hsplit, hslots, hnone⟩ := exists_split_of_readSlots? hs
    obtain ⟨f, hf⟩ := exists_slotFault?_iff.mpr hnone
    simp only [populateObject_of_split hsplit hslots hf, populateProperty_enter hnone]

end Table

theorem Palette.regular_given : (Value.dict given).Regular := by
  have hlist : (Value.list [.string "red", .string "pink", .string "blue"]).Regular := by
    simp only [Value.regular_list_iff, List.forall_mem_cons]
    exact ⟨Value.regular_atom rfl rfl, Value.regular_atom rfl rfl, Value.regular_atom rfl rfl,
      List.forall_mem_nil _⟩
  rw [Value.regular_dict_iff]
  exact ⟨List.nodup_singleton _, List.forall_mem_singleton.mpr hlist⟩

/-- Over an object that lacks all slots and has extra properties which its plan does not allow. -/
theorem Table.populateObject_populateObject_palette : (Value.dict Palette.given).Regular ∧
    ∃ out, Palette.table.populateObject Palette.plan Palette.given ⟨∅, .any ⟨[("x", .int 1)]⟩⟩ =
        (out, some (.member (some "colors") 1 (.unknownMember none Palette.color "pink"))) ∧
      Palette.table.populateObject Palette.plan Palette.given out =
        (out, some (.member (some "colors") 1 (.unknownMember none Palette.color "pink"))) := by
  have hrun := populateObject_populateObject Palette.regular_given (t := Palette.table) Palette.plan
    ⟨∅, .any ⟨[("x", .int 1)]⟩⟩
  have hfault := (Palette.failsAt_colors ⟨∅, .any ⟨[("x", .int 1)]⟩⟩).snd_populateObject
  exact ⟨Palette.regular_given, _, Prod.ext rfl hfault, hrun.trans (Prod.ext rfl hfault)⟩

end Interchange
