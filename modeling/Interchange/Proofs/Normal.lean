import Interchange.Proofs.Likeness

/-! # Normal forms

What becomes of a value that is read and written (`Normal`). Outside of typed extra properties a
normal form is absorbed by the value it comes from (`absorbed_of_normal`), and an object that takes
any extra property has a normal form alike to it (`Declared.alike_merge`). The only change of kind
inside a choice is from a double to an integer (`kind_of_normal`).
-/

namespace Interchange

open Plan Populate Serialize

/-! ## Integers of 64 bits -/

theorem Populate.exists_of_integral? {d : Double} {z : Int64} (h : integral? d = some z) :
    ∃ n : Int, d.toInt? = some n ∧ -0x8000000000000000 ≤ n ∧ n ≤ 0x8000000000000000 ∧
      z.toInt = min n 0x7fffffffffffffff := by
  unfold integral? at h
  split at h
  · rename_i n hn
    split at h
    · rename_i hb
      cases h
      refine ⟨n, hn, hb.1, hb.2, Int64.toInt_ofInt_of_le ?_ ?_⟩ <;> omega
    · cases h
  · cases h

/-- The largest integer of 64 bits is written as the double above it, which is read as it. -/
theorem Double.toInt?_ofInt_max : (Double.ofInt 0x7fffffffffffffff).toInt? = some 0x8000000000000000 := by
  decide

/-- An integer of 64 bits that is a double is read as it is. -/
theorem Populate.integral?_of_exact {n : Int} (h : Double.Exact n.natAbs) (hlow : -0x8000000000000000 ≤ n)
    (hhigh : n ≤ 0x7fffffffffffffff) : integral? (.ofInt n) = some (.ofInt n) := by
  have hle : n ≤ 0x8000000000000000 := by omega
  rw [integral?, Double.toInt?_ofInt h (by omega)]
  simp only [hlow, hle, and_self, if_true, Int.min_eq_left hhigh]

theorem Populate.integral?_ofInt {d : Double} {z : Int64} (h : integral? d = some z) :
    integral? (.ofInt z.toInt) = some z := by
  obtain ⟨n, hn, hlow, hhigh, hz⟩ := exists_of_integral? h
  by_cases hmax : n = 0x8000000000000000
  · have hz' : z.toInt = 0x7fffffffffffffff := by omega
    have hback : Int64.ofInt 0x7fffffffffffffff = z := by rw [← hz', Int64.ofInt_toInt]
    rw [hz', integral?, Double.toInt?_ofInt_max]
    exact congrArg some hback
  · have hz' : z.toInt = n := by omega
    rw [hz', integral?_of_exact (Double.exact_of_toInt? hn) hlow (by omega), ← hz', Int64.ofInt_toInt]

theorem Serialize.int64Value_cases (z : Int64) :
    (∃ m : Int32, m.toInt = z.toInt ∧ int64Value z = .int m) ∨
      int64Value z = .double (.ofInt z.toInt) := by
  unfold int64Value
  split
  · rename_i h
    exact .inl ⟨_, h.symm, rfl⟩
  · exact .inr rfl

/-- An integer of 32 bits is never written as a double: `int64Value` undoes `int64?` on it. -/
theorem Serialize.int64Value_of_int {n : Int32} {z : Int64} (h : int64? (.int n) = some z) :
    int64Value z = .int n := by
  cases h
  have hn : (Int64.ofInt n.toInt).toInt = n.toInt := by
    have := n.le_toInt
    have := n.toInt_lt
    refine Int64.toInt_ofInt_of_le ?_ ?_ <;> omega
  rw [int64Value, hn, Int32.ofInt_toInt, if_pos rfl]

/-- What is written for an integer that has been read is read as it again. -/
theorem Populate.int64?_int64Value {v : Value} {z : Int64} (h : int64? v = some z) :
    int64? (int64Value z) = some z := by
  cases v with
  | int n =>
    rw [int64Value_of_int h]
    exact h
  | double d =>
    rcases int64Value_cases z with ⟨m, hm, hw⟩ | hw
    · rw [hw, int64?, hm, Int64.ofInt_toInt]
    · rw [hw, int64?]
      exact integral?_ofInt h
  | null | bool | string | binary | list | dict => cases h

/-! ## Shapes without parts -/

/-- Names of members that lead back to the same member. All do in an enumeration that is small
enough for the codes (`EnumPlan.returns`). -/
def Plan.EnumPlan.Returns (e : EnumPlan) (v : Value) : Prop :=
  ∀ m, e.member? v = some m → e.member? (.string (e.nameOf m)) = some m

theorem Plan.EnumPlan.returns {e : EnumPlan} (he : e.members.length < 0xffffffff) (v : Value) :
    e.Returns v := by
  intro m hm
  obtain ⟨s, hs, h⟩ := Option.bind_eq_some_iff.mp hm
  have hmem : s ∈ e.members := by
    by_contra hn
    rw [(isNone_ofName_iff he).mpr hn, if_pos rfl] at h
    cases h
  split at h
  · cases h
  · rename_i hn
    cases h
    rw [nameOf_ofName he hmem, member?, Value.string?, Option.bind_some, if_neg hn]

/-- What `writeLeaf?` writes is read as the same data again. -/
theorem readLeaf?_of_writeLeaf? {α : Type} {s : ShapeOf α} {v w : Value} {x : Data}
    (he : ∀ e, s = .enumeration e → e.Returns v) (hr : s.readLeaf? v = some x)
    (hw : s.writeLeaf? x = some w) : s.readLeaf? w = some x := by
  cases s with
  | any =>
    cases hr
    cases hw
    rfl
  | int64 =>
    obtain ⟨z, hz, rfl⟩ := Option.map_eq_some_iff.mp hr
    cases hw
    rw [ShapeOf.readLeaf?, int64?_int64Value hz, Option.map_some]
  | enumeration e =>
    obtain ⟨m, hm, rfl⟩ := Option.map_eq_some_iff.mp hr
    cases hw
    rw [ShapeOf.readLeaf?, he e rfl m hm, Option.map_some]
  | function b =>
    cases b <;>
    · obtain ⟨_, -, rfl⟩ := Option.map_eq_some_iff.mp hr
      cases hw
      rfl
  | array | object | choices => cases hr
  | boolean | integer | double | string | binary =>
    obtain ⟨_, -, rfl⟩ := Option.map_eq_some_iff.mp hr
    cases hw
    rfl

namespace Table

variable {t : Table} {p : Plan} {v w w' : Value}

/-! ## Normal forms -/

/-- A value is read by `read?`, and the data is written by `write?`. -/
def Normal (t : Table) (p : Plan) (v w : Value) : Prop :=
  ∃ x, t.read? p v = some x ∧ t.write? p x = some w

theorem Normal.unique (h : t.Normal p v w) (h' : t.Normal p v w') : w = w' := by
  obtain ⟨x, hr, hw⟩ := h
  obtain ⟨x', hr', hw'⟩ := h'
  rw [hr] at hr'
  cases hr'
  rw [hw] at hw'
  exact Option.some.inj hw'

theorem exists_normal (hu : t.UniqueNames p) {x : Data} (h : t.read? p v = some x) :
    ∃ w, t.write? p x = some w ∧ t.Normal p v w := by
  obtain ⟨w, hw⟩ := exists_write? (conforms_of_read? hu h) (settled_of_read? h)
  exact ⟨w, hw, x, h, hw⟩

/-- How a `Normal` form comes about: in one of four ways, by the shape of the plan. -/
inductive NormalAs (t : Table) (p : Plan) : Value → Value → Prop
  | leaf {v w : Value} {x : Data} (hs : (t.shape p).isLeaf = true)
      (hr : (t.shape p).readLeaf? v = some x) (hw : (t.shape p).writeLeaf? x = some w) :
      NormalAs t p v w
  | array {items : Plan} {vs ws : List Value} (hs : t.shape p = .array items)
      (h : List.Forall₂ (t.Normal items) vs ws) : NormalAs t p (.list vs) (.list ws)
  | object {o : ObjectPlan} {d e : Dict Value} {x : Object} (hs : t.shape p = .object o)
      (hr : t.readObject? o d = some x) (hw : t.writeObject? o x = some e) :
      NormalAs t p (.dict d) (.dict e)
  | choice {c : ChoicesPlan} {i : Nat} {u : VariantPlan} {v w : Value}
      (hs : t.shape p = .choices c) (hp : t.pick v 0 c.variants = some (i, u))
      (h : t.Normal u.plan v w) : NormalAs t p v w

theorem normal_choices_iff {c : ChoicesPlan} (hs : t.shape p = .choices c) {i : Nat} {u : VariantPlan}
    (hp : t.pick v 0 c.variants = some (i, u)) : t.Normal p v w ↔ t.Normal u.plan v w := by
  have hu := getElem?_of_pick hp
  have hwrite : ∀ y, t.read? u.plan v = some y →
      t.write? p (.choice ⟨(t.newChoice c).slots.set i (some y)⟩) = t.write? u.plan y := by
    intro y hy
    rw [write?_choices hs, writeChoice?_of_engaged (engaged_set_newChoice hu (engaged_of_read? hy)), hu,
      Option.bind_some, get?_set_newChoice t hu, if_pos rfl, Option.bind_some]
  have hread : t.read? p v = (t.read? u.plan v).map fun y =>
      .choice ⟨(t.newChoice c).slots.set i (some y)⟩ := by
    rw [read?_choices hs, readChoice?, hp, Option.bind_some, Option.map_map]
    rfl
  constructor
  · rintro ⟨x, hr, hw⟩
    rw [hread] at hr
    obtain ⟨y, hy, rfl⟩ := Option.map_eq_some_iff.mp hr
    exact ⟨y, hy, (hwrite y hy).symm.trans hw⟩
  · rintro ⟨y, hy, hw⟩
    exact ⟨_, by rw [hread, hy, Option.map_some], (hwrite y hy).trans hw⟩

theorem normal_array {items : Plan} (hs : t.shape p = .array items) {vs ws : List Value}
    (h : List.Forall₂ (t.Normal items) vs ws) : t.Normal p (.list vs) (.list ws) := by
  obtain ⟨xs, hr, hw⟩ := forall₂_comp_iff.mp h
  refine ⟨.array xs, ?_, ?_⟩
  · rw [read?_array hs, Value.list?, Option.bind_some, mapM_eq_some_iff.mpr hr, Option.map_some]
  · rw [write?_array hs, mapM_eq_some_iff.mpr hw, Option.map_some]

theorem normalAs_of_normal (h : t.Normal p v w) : t.NormalAs p v w := by
  obtain ⟨x, hr, hw⟩ := h
  cases readsAs_of_read? hr with
  | leaf hs hx =>
    rw [write?_leaf hs] at hw
    exact .leaf hs hx hw
  | @array items vs xs hs hx =>
    rw [write?_array hs] at hw
    obtain ⟨ws, hws, rfl⟩ := Option.map_eq_some_iff.mp hw
    refine .array hs ?_
    exact forall₂_comp_iff.mpr ⟨_, hx, mapM_eq_some_iff.mp hws⟩
  | object hs hx =>
    rw [write?_object hs] at hw
    obtain ⟨e, he, rfl⟩ := Option.map_eq_some_iff.mp hw
    exact .object hs hx he
  | choice hs hx =>
    obtain ⟨i, u, y, hp, -, -⟩ := exists_of_readChoice? hx
    exact .choice hs hp ((normal_choices_iff hs hp).mp ⟨_, hr, hw⟩)

/-! ## Declared properties -/

/-- What becomes of the value of a property. One that is absent stays absent, and what an optional
function ignores becomes an empty dictionary. -/
inductive SlotNormal (t : Table) (q : PropertyPlan) : Option Value → Option Value → Prop
  | absent (h : q.optional = true) : SlotNormal t q none none
  | ignored (h : t.ignores q = true) (v : Value) : SlotNormal t q (some v) (some (.dict ∅))
  | given {v w : Value} (h : t.ignores q = false) (hn : t.Normal q.plan v w) :
      SlotNormal t q (some v) (some w)

section Fields

variable {o : ObjectPlan} {d : Dict Value} {x : Object} {fields : List (String × Value)}
  {q : PropertyPlan}

theorem mem_of_writeFields? (h : t.writeFields? o.properties x = some fields)
    (hq : q ∈ written x o.properties) :
    ∃ y w, x.get? q.name = some y ∧ t.write? q.plan y = some w ∧ (q.name, w) ∈ fields := by
  obtain ⟨e, he, hf⟩ := Forall₂.exists_right (mapM_eq_some_iff.mp h) q hq
  obtain ⟨y, hy, hf⟩ := Option.bind_eq_some_iff.mp hf
  obtain ⟨w, hw, rfl⟩ := Option.map_eq_some_iff.mp hf
  exact ⟨y, w, hy, hw, he⟩

theorem map_fst_writeFields? (h : t.writeFields? o.properties x = some fields) :
    fields.map (·.1) = (written x o.properties).map (·.name) := by
  refine (Forall₂.map_eq ((mapM_eq_some_iff.mp h).imp fun q e hf => ?_)).symm
  obtain ⟨y, -, hf⟩ := Option.bind_eq_some_iff.mp hf
  obtain ⟨w, -, rfl⟩ := Option.map_eq_some_iff.mp hf
  rfl

theorem nodup_writeFields? (hn : (o.properties.map (·.name)).Nodup)
    (h : t.writeFields? o.properties x = some fields) : (fields.map (·.1)).Nodup := by
  rw [map_fst_writeFields? h]
  exact hn.sublist (List.filter_sublist.map _)

theorem get?_of_not_written (hn : (o.properties.map (·.name)).Nodup)
    (h : t.writeFields? o.properties x = some fields) (hq : q ∈ o.properties)
    (hw : q ∉ written x o.properties) : (Dict.ofList fields).get? q.name = none := by
  rw [Dict.get?_eq_none_iff, Dict.mem_keys_ofList, map_fst_writeFields? h]
  intro hm
  obtain ⟨q', hq', hname⟩ := List.mem_map.mp hm
  obtain rfl := List.inj_on_of_nodup_map hn (List.mem_of_mem_filter hq') hq hname
  exact hw hq'

theorem get?_of_written (hn : (o.properties.map (·.name)).Nodup)
    (h : t.writeFields? o.properties x = some fields) (hq : q ∈ written x o.properties) :
    ∃ y w, x.get? q.name = some y ∧ t.write? q.plan y = some w ∧
      (Dict.ofList fields).get? q.name = some w := by
  obtain ⟨y, w, hy, hw, hm⟩ := mem_of_writeFields? h hq
  have hk := nodup_writeFields? hn h
  exact ⟨y, w, hy, hw, by rw [Dict.get?_ofList_of_nodup hk]; exact Dict.lookup_of_mem hk hm⟩

theorem slotNormal_of_readObject? (hn : (o.properties.map (·.name)).Nodup)
    (hr : t.readObject? o d = some x) (hw : t.writeFields? o.properties x = some fields)
    (hq : q ∈ o.properties) :
    t.SlotNormal q (d.get? q.name) ((Dict.ofList fields).get? q.name) := by
  have hslot := readSlot?_of_readObject? hn hr hq
  have hwritten : q ∈ written x o.properties ↔ q.optional = false ∨ Data.engaged (x.get? q.name) = true := by
    rw [written, List.mem_filter, Bool.or_eq_true, Bool.not_eq_true']
    exact and_iff_right hq
  cases hu : d.get? q.name with
  | none =>
    rw [hu, readSlot?] at hslot
    split at hslot
    · rename_i hopt
      have habsent := engaged_absentSlot t q.plan
      rw [Option.some.inj hslot] at habsent
      have hnot : q ∉ written x o.properties := by
        rw [hwritten]
        simp [hopt, habsent]
      rw [get?_of_not_written hn hw hq hnot]
      exact .absent hopt
    · cases hslot
  | some v =>
    rw [hu, readSlot?] at hslot
    split at hslot
    · rename_i hi
      have hx := (Option.some.inj hslot).symm
      obtain ⟨y, w, hy, hwy, hg⟩ := get?_of_written hn hw (hwritten.mpr (.inr (by rw [hx]; rfl)))
      rw [hx] at hy
      cases hy
      have hs : t.shape q.plan = .function false := by
        rw [ignores, Bool.and_eq_true, ShapeOf.isFunction_iff] at hi
        exact hi.2
      rw [write?_leaf (by rw [hs]; rfl), hs] at hwy
      cases hwy
      rw [hg]
      exact .ignored hi v
    · rename_i hi
      obtain ⟨y, hy, hx⟩ := Option.map_eq_some_iff.mp hslot
      have hengaged : Data.engaged (x.get? q.name) = true := by
        rw [← hx]
        exact engaged_of_read? hy
      obtain ⟨y', w, hy', hwy, hg⟩ := get?_of_written hn hw (hwritten.mpr (.inr hengaged))
      rw [← hx] at hy'
      cases hy'
      rw [hg]
      exact .given (Bool.eq_false_iff.mpr hi) ⟨y, hy, hwy⟩

/-- Only declared properties are among the fields that `writeFields?` writes. -/
theorem exists_property_of_get? (hw : t.writeFields? o.properties x = some fields) {k : String}
    {w : Value} (hk : (Dict.ofList fields).get? k = some w) : ∃ q ∈ o.properties, q.name = k := by
  have hm := Dict.key_mem_of_mem (Dict.mem_of_get? hk)
  rw [Dict.mem_keys_ofList, map_fst_writeFields? hw] at hm
  obtain ⟨q, hq, rfl⟩ := List.mem_map.mp hm
  exact ⟨q, List.mem_of_mem_filter hq, rfl⟩

end Fields

/-! ## Objects -/

/-- What the declared properties of an object are written as, each by `SlotNormal`. -/
structure Declared (t : Table) (o : ObjectPlan) (d f : Dict Value) : Prop where
  distinct : f.Distinct
  names : ∀ k w, f.get? k = some w → ∃ q ∈ o.properties, q.name = k
  slots : ∀ q ∈ o.properties, t.SlotNormal q (d.get? q.name) (f.get? q.name)

/-- What an object becomes, by the properties that it takes beside the declared ones. Where they are
typed, their values are written over those of the declared properties. -/
inductive ObjectNormal (t : Table) (o : ObjectPlan) (d : Dict Value) : Dict Value → Prop
  | closed {f : Dict Value} (ha : o.additional = none) (hf : t.Declared o d f) : ObjectNormal t o d f
  | free {a : Plan} {f : Dict Value} (ha : o.additional = some a) (hs : t.shape a = .any)
      (hf : t.Declared o d f) : ObjectNormal t o d (Value.merge f d)
  | typed {a : Plan} {e : Dict Value} (ha : o.additional = some a) (hs : t.shape a ≠ .any)
      (distinct : e.Distinct) (entries : ∀ k, Option.Rel (t.Normal a) (d.get? k) (e.get? k)) :
      ObjectNormal t o d e

section Object

variable {o : ObjectPlan} {d e : Dict Value} {x : Object} {fields : List (String × Value)}

theorem declared_of_readObject? (hn : (o.properties.map (·.name)).Nodup)
    (hr : t.readObject? o d = some x) (hw : t.writeFields? o.properties x = some fields) :
    t.Declared o d (.ofList fields) where
  distinct := Dict.distinct_ofList fields
  names _ _ := exists_property_of_get? hw
  slots _ := slotNormal_of_readObject? hn hr hw

/-- What is not given is not written: absent properties stay absent. -/
theorem Declared.get?_eq_none {f : Dict Value} (h : t.Declared o d f) {k : String}
    (hk : d.get? k = none) : f.get? k = none := by
  by_contra hf
  obtain ⟨w, hw⟩ := Option.ne_none_iff_exists'.mp hf
  obtain ⟨q, hq, rfl⟩ := h.names k w hw
  have hs := h.slots q hq
  rw [hk, hw] at hs
  cases hs

/-- What typed extra properties become, key by key and by `Normal`. -/
theorem rel_of_readEntries? {a : Plan} {es : List (String × Data)} {ws : List (String × Value)}
    (hd : d.Distinct) (hr : t.readEntries? a d.entries = some es)
    (hw : t.writeEntries? a (Dict.ofList es).entries = some ws) (k : String) :
    Option.Rel (t.Normal a) (d.get? k) ((Dict.ofList ws).get? k) := by
  have hget : (Dict.ofList ws).get? k = ((d.get? k).bind (t.read? a)).bind (t.write? a) := by
    rw [← get?_of_readEntries? hd hr]
    exact Dict.get?_ofList_of_mapM (Dict.distinct_ofList es) hw k
  rw [hget]
  cases hv : d.get? k with
  | none => exact .none
  | some v =>
    obtain ⟨y, hy⟩ := exists_read?_of_readEntries? hr (Dict.mem_of_get? hv)
    have hm : (k, y) ∈ (Dict.ofList es).entries := by
      refine Dict.mem_of_get? ?_
      rw [get?_of_readEntries? hd hr, hv, Option.bind_some, hy]
    obtain ⟨_, -, hwy⟩ := Forall₂.exists_right (mapM_eq_some_iff.mp hw) _ hm
    obtain ⟨w, hwy, -⟩ := Option.map_eq_some_iff.mp hwy
    rw [Option.bind_some, hy, Option.bind_some, hwy]
    exact .some ⟨y, hy, hwy⟩

theorem objectNormal_of_readObject? (hn : (o.properties.map (·.name)).Nodup) (hd : d.Distinct)
    (hr : t.readObject? o d = some x) (hw : t.writeObject? o x = some e) : t.ObjectNormal o d e := by
  obtain ⟨fields, hfields, hw⟩ := Option.bind_eq_some_iff.mp hw
  have hf := declared_of_readObject? hn hr hfields
  have hextras := readExtras?_of_readObject? hr
  cases ha : o.additional with
  | none =>
    simp only [readExtras?, ha, Option.some.injEq] at hextras
    simp only [← hextras, Option.some.injEq] at hw
    rw [← hw]
    exact .closed ha hf
  | some a =>
    by_cases hs : t.shape a = .any
    · simp only [readExtras?, ha, hs, Option.some.injEq] at hextras
      simp only [← hextras, Option.some.injEq, Value.merge_empty hd] at hw
      rw [← hw]
      exact .free ha hs hf
    · obtain ⟨es, hes, hx⟩ := exists_entries_of_readExtras? ha hs hextras
      simp only [hx, ha, Option.bind_some] at hw
      obtain ⟨ws, hws, rfl⟩ := Option.map_eq_some_iff.mp hw
      refine .typed ha hs (Dict.distinct_ofList _) fun k => ?_
      have hrel := rel_of_readEntries? hd hes hws k
      have hget : (Dict.ofList (fields ++ ws)).get? k =
          ((Dict.ofList ws).get? k).or ((Dict.ofList fields).get? k) := by
        rw [Dict.get?_ofList, Dict.get?_ofList, Dict.get?_ofList, List.reverse_append, List.lookup_append]
      rw [hget]
      cases hv : d.get? k with
      | none =>
        rw [hv] at hrel
        rw [eq_none_of_rel hrel, hf.get?_eq_none hv]
        exact .none
      | some v =>
        rw [hv] at hrel
        obtain ⟨w, hw', hvw⟩ := exists_of_rel_some hrel
        rw [hw', Option.some_or]
        exact .some hvw

/-- What is written for a declared property comes from what was given for it. -/
theorem Declared.exists_of_get? {f : Dict Value} (h : t.Declared o d f) {k : String}
    (hw : f.get? k = some w) :
    ∃ v, d.get? k = some v ∧ (w = .dict ∅ ∨ ∃ q ∈ o.properties, t.Normal q.plan v w) := by
  obtain ⟨q, hq, rfl⟩ := h.names k w hw
  have hs := h.slots q hq
  rw [hw] at hs
  cases hv : d.get? q.name with
  | none =>
    rw [hv] at hs
    cases hs
  | some v =>
    rw [hv] at hs
    cases hs with
    | ignored => exact ⟨v, rfl, .inl rfl⟩
    | given _ hn => exact ⟨v, rfl, .inr ⟨q, hq, hn⟩⟩

end Object

/-! ## Absorption -/

theorem absorbed_of_writeLeaf? {α : Type} {s : ShapeOf α} {x : Data} (hr : s.readLeaf? v = some x)
    (hw : s.writeLeaf? x = some w) : Value.Absorbed w v := by
  cases s with
  | any =>
    cases hr
    cases hw
    exact .refl v
  | function b =>
    cases b <;>
    · obtain ⟨_, -, rfl⟩ := Option.map_eq_some_iff.mp hr
      cases hw
      first | exact Value.absorbed_empty v | exact .apart (.inl rfl)
  | int64 =>
    obtain ⟨z, -, rfl⟩ := Option.map_eq_some_iff.mp hr
    cases hw
    rcases int64Value_cases z with ⟨m, -, h⟩ | h <;>
    · rw [h]
      exact .apart (.inl rfl)
  | array | object | choices => cases hr
  | boolean | integer | double | string | binary | enumeration =>
    obtain ⟨_, -, rfl⟩ := Option.map_eq_some_iff.mp hr
    cases hw
    exact .apart (.inl rfl)

section Absorption

variable {o : ObjectPlan} {d e f : Dict Value}

theorem Declared.absorbed (h : t.Declared o d f)
    (ih : ∀ q ∈ o.properties, ∀ k v w, d.get? k = some v → t.Normal q.plan v w → Value.Absorbed w v) :
    Value.Absorbed (.dict f) (.dict d) := by
  refine .dict (fun k hk => ?_) fun k w v hw hv => ?_
  · obtain ⟨w, hw⟩ := Dict.contains_eq_true_iff_exists.mp hk
    obtain ⟨v, hv, -⟩ := h.exists_of_get? hw
    exact Dict.contains_eq_true_iff_exists.mpr ⟨v, hv⟩
  · obtain ⟨v', hv', rfl | ⟨q, hq, hn⟩⟩ := h.exists_of_get? hw
    · exact Value.absorbed_empty v
    · rw [hv] at hv'
      cases hv'
      exact ih q hq k v w hv hn

/-- An object that takes any extra property holds the dictionary that it is read from: merging it
over what is `Declared` brings it back. -/
theorem Declared.alike_merge (h : t.Declared o d f) (hd : Value.Regular (.dict d))
    (ih : ∀ q ∈ o.properties, ∀ k v w, d.get? k = some v → t.Normal q.plan v w → Value.Absorbed w v) :
    Value.Alike Eq (.dict (Value.merge f d)) (.dict d) := by
  rw [← Value.mergeOver_dict]
  exact (h.absorbed ih).alike hd

end Absorption

/-- What is written is `Absorbed`: it leaves nothing behind when the value it comes from is merged
over it. -/
theorem absorbed_of_normal (hu : t.UniqueNames p) (hv : v.Regular) (h : t.Normal p v w) :
    Value.Absorbed w v := by
  induction p, v using read_induction t generalizing w with
  | step p v ihv ihw =>
    cases normalAs_of_normal h with
    | leaf hs hr hw => exact absorbed_of_writeLeaf? hr hw
    | array => exact .apart (.inl rfl)
    | @object o d e x hs hr hw =>
      have hq : ∀ q ∈ o.properties, ∀ k v w, d.get? k = some v → t.Normal q.plan v w →
          Value.Absorbed w v := fun q hq k u w hk hn =>
        ihv u (.of_get? hk) q.plan (hu.part (part_property hs hq)) (hv.of_get? hk) hn
      cases objectNormal_of_readObject? (hu.nodup hs) hv.distinct hr hw with
      | closed _ hf => exact hf.absorbed hq
      | free _ _ hf => exact (hf.alike_merge hv hq).absorbed
      | typed ha _ _ entries =>
        refine .dict (fun k hk => ?_) fun k w u hw hk => ?_
        · rw [Dict.contains, (optionRel_iff.mp (entries k)).1]
          exact hk
        · have hn := (optionRel_iff.mp (entries k)).2 u w hk hw
          exact ihv u (.of_get? hk) _ (hu.part (part_additional hs ha)) (hv.of_get? hk) hn
    | choice hs hp hn =>
      have hm := List.mem_of_getElem? (getElem?_of_pick hp)
      exact ihw _ hs _ hm (hu.part (part_variant hs hm)) hv hn

/-! ## Regular values -/

theorem regular_of_writeLeaf? {α : Type} {s : ShapeOf α} {x : Data} (hv : v.Regular)
    (hr : s.readLeaf? v = some x) (hw : s.writeLeaf? x = some w) : w.Regular := by
  cases s with
  | any =>
    cases hr
    cases hw
    exact hv
  | function b =>
    cases b with
    | true =>
      obtain ⟨_, -, rfl⟩ := Option.map_eq_some_iff.mp hr
      cases hw
      exact Value.regular_atom rfl rfl
    | false =>
      obtain ⟨_, -, rfl⟩ := Option.map_eq_some_iff.mp hr
      cases hw
      exact Value.regular_dict_iff.mpr ⟨Dict.distinct_empty, nofun⟩
  | int64 =>
    obtain ⟨z, -, rfl⟩ := Option.map_eq_some_iff.mp hr
    cases hw
    rcases int64Value_cases z with ⟨m, -, h⟩ | h <;>
    · rw [h]
      exact Value.regular_atom rfl rfl
  | array | object | choices => cases hr
  | boolean | integer | double | string | binary | enumeration =>
    obtain ⟨_, -, rfl⟩ := Option.map_eq_some_iff.mp hr
    cases hw
    exact Value.regular_atom rfl rfl

theorem Declared.regular {o : ObjectPlan} {d f : Dict Value} (h : t.Declared o d f)
    (ih : ∀ q ∈ o.properties, ∀ k v w, d.get? k = some v → t.Normal q.plan v w → w.Regular) :
    Value.Regular (.dict f) := by
  refine Value.regular_dict_iff.mpr ⟨h.distinct, fun e he => ?_⟩
  obtain ⟨v, hv, hw | ⟨q, hq, hn⟩⟩ := h.exists_of_get? (Dict.get?_of_mem h.distinct he)
  · rw [hw]
    exact Value.regular_dict_iff.mpr ⟨Dict.distinct_empty, nofun⟩
  · exact ih q hq e.1 v e.2 hv hn

theorem regular_of_normal (hu : t.UniqueNames p) (hv : v.Regular) (h : t.Normal p v w) :
    w.Regular := by
  induction p, v using read_induction t generalizing w with
  | step p v ihv ihw =>
    cases normalAs_of_normal h with
    | leaf hs hr hw => exact regular_of_writeLeaf? hv hr hw
    | @array items vs ws hs hn =>
      refine Value.regular_list_iff.mpr fun w hw => ?_
      obtain ⟨u, hm, hn⟩ := Forall₂.exists_left hn w hw
      exact ihv u (.item hm) items (hu.part (part_item hs)) (hv.part (.item hm)) hn
    | @object o d e x hs hr hw =>
      have hq : ∀ q ∈ o.properties, ∀ k v w, d.get? k = some v → t.Normal q.plan v w → w.Regular :=
        fun q hq k u w hk hn =>
          ihv u (.of_get? hk) q.plan (hu.part (part_property hs hq)) (hv.of_get? hk) hn
      cases objectNormal_of_readObject? (hu.nodup hs) hv.distinct hr hw with
      | closed _ hf => exact hf.regular hq
      | free _ _ hf => exact Value.regular_merge (hf.regular hq) hv
      | typed ha _ distinct entries =>
        refine Value.regular_dict_iff.mpr ⟨distinct, fun r hr => ?_⟩
        have hk := entries r.1
        rw [Dict.get?_of_mem distinct hr] at hk
        cases hd : d.get? r.1 with
        | none =>
          rw [hd] at hk
          cases hk
        | some u =>
          rw [hd] at hk
          cases hk with
          | some hn =>
            exact ihv u (.of_get? hd) _ (hu.part (part_additional hs ha)) (hv.of_get? hd) hn
    | choice hs hp hn =>
      have hm := List.mem_of_getElem? (getElem?_of_pick hp)
      exact ihw _ hs _ hm (hu.part (part_variant hs hm)) hv hn

/-! ## Kinds -/

theorem kind_of_writeLeaf? {α : Type} {s : ShapeOf α} {x : Data} (hk : s.Suits v.kind)
    (hr : s.readLeaf? v = some x) (hw : s.writeLeaf? x = some w) :
    s.Suits w.kind ∧ (w.kind = v.kind ∨ s = .int64 ∧ v.kind = .double ∧ w.kind = .int) := by
  cases s with
  | any =>
    cases hr
    cases hw
    exact ⟨hk, .inl rfl⟩
  | int64 =>
    obtain ⟨z, hz, rfl⟩ := Option.map_eq_some_iff.mp hr
    cases hw
    cases v with
    | int n =>
      rcases int64Value_cases z with ⟨m, -, h⟩ | h
      · rw [h]
        exact ⟨.int64, .inl rfl⟩
      · rw [int64Value_of_int hz] at h
        cases h
    | double d =>
      rcases int64Value_cases z with ⟨m, -, h⟩ | h <;> rw [h]
      · exact ⟨.int64, .inr ⟨rfl, rfl, rfl⟩⟩
      · exact ⟨.whole, .inl rfl⟩
    | null | bool | string | binary | list | dict => cases hz
  | array | object | choices => cases hr
  | function b =>
    cases b <;>
    · obtain ⟨_, -, rfl⟩ := Option.map_eq_some_iff.mp hr
      cases hw
      cases v <;> cases hk
      exact ⟨by constructor, .inl rfl⟩
  | boolean | integer | double | string | binary | enumeration =>
    obtain ⟨_, -, rfl⟩ := Option.map_eq_some_iff.mp hr
    cases hw
    cases v <;> cases hk
    exact ⟨by constructor, .inl rfl⟩

/-- Where the kind of a value `Suits` the plan, so does that of its normal form. The one change of
kind is from a double to an integer. -/
theorem kind_of_normal (hk : t.Suits p v.kind) (h : t.Normal p v w) :
    t.Suits p w.kind ∧ (w.kind = v.kind ∨ v.kind = .double ∧ w.kind = .int) := by
  induction p, v using read_induction t generalizing w with
  | step p v ihv ihw =>
    cases normalAs_of_normal h with
    | leaf hs hr hw =>
      rw [suits_iff_of_isLeaf hs] at hk ⊢
      obtain ⟨hw, hkind⟩ := kind_of_writeLeaf? hk hr hw
      exact ⟨hw, hkind.imp_right fun h => h.2⟩
    | array | object => exact ⟨hk, .inl rfl⟩
    | choice hs hp hn =>
      have hm := List.mem_of_getElem? (getElem?_of_pick hp)
      obtain ⟨hsuits, hkind⟩ := ihw _ hs _ hm (admits_iff.mp (admits_of_pick hp)) hn
      exact ⟨.variant hs hm hsuits, hkind⟩

/-- A plan that takes integers but no doubles leaves them as they are. -/
theorem normal_int (hi : t.Suits p .int) (hd : ¬t.Suits p .double) (m : Int32) :
    t.Normal p (.int m) (.int m) := by
  generalize hv : Value.int m = v
  induction p, v using read_induction t with
  | step p v ihv ihw =>
    subst hv
    cases hi with
    | shape hi =>
      cases hs : t.shape p with
      | integer =>
        have hl : (t.shape p).isLeaf = true := by rw [hs]; rfl
        refine ⟨.integer m, ?_, ?_⟩
        · rw [read?_leaf hl, hs]
          rfl
        · rw [write?_leaf hl, hs]
          rfl
      | int64 => exact absurd (.shape (by rw [hs]; exact .whole)) hd
      | any => exact absurd (.shape (by rw [hs]; exact .any _)) hd
      | boolean | double | string | binary | enumeration | array | object | choices =>
        rw [hs] at hi
        cases hi
      | function b =>
        rw [hs] at hi
        cases hi
    | variant hs hw hi =>
      obtain ⟨i, u, hp⟩ := exists_pick (v := .int m) hs (.variant hs hw hi)
      have hm := List.mem_of_getElem? (getElem?_of_pick hp)
      rw [normal_choices_iff hs hp]
      exact ihw _ hs u hm (admits_iff.mp (admits_of_pick hp)) (fun h => hd (.variant hs hm h)) rfl

end Table

end Interchange
