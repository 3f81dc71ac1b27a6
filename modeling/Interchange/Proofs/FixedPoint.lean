import Interchange.Proofs.Normal

/-! # Normal forms are fixed

Where no object has typed extra properties, what is written is read again, and what is then written
is alike to it (`stable_of_normal`). In a choice the second reading may engage another variant. That
happens when a double became an integer, which the variant that takes it over leaves as it is
(`normal_int`).
-/

namespace Interchange

open Plan

namespace Table

variable {t : Table} {p : Plan} {v w : Value}

/-- A value with a `Normal` form that is `Alike` to it. -/
def Stable (t : Table) (p : Plan) (w : Value) : Prop := ∃ w', t.Normal p w w' ∧ Value.Alike Eq w' w

theorem stable_of_normal_self (h : t.Normal p w w) : t.Stable p w :=
  ⟨w, h, .refl (fun _ => rfl) w⟩

theorem Stable.alike {w' : Value} (h : t.Stable p w) (hn : t.Normal p w w') : Value.Alike Eq w' w := by
  obtain ⟨w'', hn', halike⟩ := h
  rwa [hn.unique hn']

theorem Stable.isSome_read? (h : t.Stable p w) : (t.read? p w).isSome = true := by
  obtain ⟨_, ⟨x, hx, -⟩, -⟩ := h
  rw [hx]
  rfl

theorem stable_array {items : Plan} (hs : t.shape p = .array items) {ws : List Value}
    (h : ∀ w ∈ ws, t.Stable items w) : t.Stable p (.list ws) := by
  obtain ⟨ws', h⟩ := exists_forall₂ h
  refine ⟨.list ws', normal_array hs (h.imp fun _ _ h => h.1), ?_⟩
  exact Value.alike_list_iff.mpr (h.imp fun _ _ h => h.2).flip

/-! ## Objects -/

section Object

variable {o : ObjectPlan} {d e f : Dict Value}

theorem isSome_readSlot?_of_slotNormal {q : PropertyPlan} {u u' : Option Value}
    (h : t.SlotNormal q u u') (ih : ∀ v w, u = some v → t.Normal q.plan v w → t.Stable q.plan w) :
    (t.readSlot? q u').isSome = true := by
  cases h with
  | absent hopt => rw [readSlot?, if_pos hopt, Option.isSome_some]
  | ignored hi => rw [readSlot?, if_pos hi, Option.isSome_some]
  | @given v w hi hn =>
    rw [readSlot?, if_neg (by rw [hi]; exact Bool.false_ne_true), Option.isSome_map]
    exact (ih v w rfl hn).isSome_read?

theorem alike_of_slotNormal {q : PropertyPlan} {u u' : Option Value} (h : t.SlotNormal q u (some w))
    (h' : t.SlotNormal q (some w) u')
    (ih : ∀ v, u = some v → t.Normal q.plan v w → t.Stable q.plan w) :
    Option.Rel (Value.Alike Eq) u' (some w) := by
  cases h with
  | ignored hi =>
    cases h' with
    | ignored => exact .some (.refl (fun _ => rfl) _)
    | given hi' =>
      rw [hi] at hi'
      cases hi'
  | @given v _ hi hn =>
    cases h' with
    | ignored hi' =>
      rw [hi] at hi'
      cases hi'
    | given _ hn' => exact .some ((ih v rfl hn).alike hn')

theorem Declared.alike {f' : Dict Value} (h : t.Declared o d f) (h' : t.Declared o f f')
    (ih : ∀ q ∈ o.properties, ∀ v w, d.get? q.name = some v → t.Normal q.plan v w → t.Stable q.plan w) :
    Value.Alike Eq (.dict f') (.dict f) := by
  refine Value.alike_dict_iff.mpr fun k => ?_
  cases hw : f.get? k with
  | none =>
    rw [h'.get?_eq_none hw]
    exact .none
  | some w =>
    obtain ⟨q, hq, rfl⟩ := h.names k w hw
    have hs := h.slots q hq
    have hs' := h'.slots q hq
    rw [hw] at hs hs'
    exact alike_of_slotNormal hs hs' fun v hv => ih q hq v w hv

theorem stable_closed (hs : t.shape p = .object o) (hu : t.UniqueNames p) (ha : o.additional = none)
    (hf : t.Declared o d f)
    (ih : ∀ q ∈ o.properties, ∀ v w, d.get? q.name = some v → t.Normal q.plan v w → t.Stable q.plan w) :
    t.Stable p (.dict f) := by
  have hsome : (t.readObject? o f).isSome = true := by
    refine isSome_readObject?_iff.mpr ⟨fun q hq => ?_, ?_⟩
    · exact isSome_readSlot?_of_slotNormal (hf.slots q hq) (ih q hq)
    · rw [isSome_readExtras?_iff, ha]
      exact nofun
  obtain ⟨x, hx⟩ := Option.isSome_iff_exists.mp hsome
  have hread : t.read? p (.dict f) = some (.object x) := by
    rw [read?_object hs, Value.dict?, Option.bind_some, hx, Option.map_some]
  obtain ⟨w, hw, hn⟩ := exists_normal hu hread
  rw [write?_object hs] at hw
  obtain ⟨f', hf', rfl⟩ := Option.map_eq_some_iff.mp hw
  refine ⟨.dict f', hn, ?_⟩
  cases objectNormal_of_readObject? (hu.nodup hs) hf.distinct hx hf' with
  | closed _ h' => exact hf.alike h' ih
  | free ha' | typed ha' =>
    rw [ha] at ha'
    cases ha'

/-- An object that takes any extra property is written as what it is read from, by
`Declared.alike_merge`. -/
theorem alike_of_free (hs : t.shape p = .object o) (hu : t.UniqueNames p) {a : Plan}
    (ha : o.additional = some a) (hany : t.shape a = .any) (hv : v.Regular) (h : t.Normal p v w) :
    Value.Alike Eq w v := by
  cases normalAs_of_normal h with
  | leaf hs' =>
    rw [hs] at hs'
    cases hs'
  | array hs' | choice hs' =>
    rw [hs] at hs'
    cases hs'
  | object hs' hr hw =>
    rw [hs] at hs'
    cases hs'
    cases objectNormal_of_readObject? (hu.nodup hs) hv.distinct hr hw with
    | closed ha' =>
      rw [ha] at ha'
      cases ha'
    | free _ _ hf =>
      refine hf.alike_merge hv fun q hq k u w hk hn => ?_
      exact absorbed_of_normal (hu.part (part_property hs hq)) (hv.of_get? hk) hn
    | typed ha' hany' =>
      rw [ha] at ha'
      cases ha'
      exact absurd hany hany'

theorem stable_free (hs : t.shape p = .object o) (hu : t.UniqueNames p) {a : Plan}
    (ha : o.additional = some a) (hany : t.shape a = .any) (hv : v.Regular) (h : t.Normal p v w) :
    t.Stable p w := by
  have hw := regular_of_normal hu hv h
  have halike := alike_of_free hs hu ha hany hv h
  obtain ⟨x, hx, -⟩ := h
  obtain ⟨y, hy, -⟩ := respects .eq hu v x w hx halike hv hw
  obtain ⟨w', -, hn⟩ := exists_normal hu hy
  exact ⟨w', hn, alike_of_free hs hu ha hany hw hn⟩

end Object

/-! ## Choices -/

theorem stable_of_pick {c : ChoicesPlan} (hs : t.shape p = .choices c) {i : Nat} {u : VariantPlan}
    (hp : t.pick w 0 c.variants = some (i, u)) (h : t.Stable u.plan w) : t.Stable p w := by
  obtain ⟨w', hn, halike⟩ := h
  exact ⟨w', (normal_choices_iff hs hp).mpr hn, halike⟩

/-- Of two values that a variant admits, where `pick` finds it for the one, it finds it for the
other too if what that one picks admits the first. -/
theorem pick_eq_of_admits {ws : List VariantPlan} {i j : Nat} {u u' : VariantPlan}
    (hv : t.pick v 0 ws = some (i, u)) (hw : t.pick w 0 ws = some (j, u'))
    (hu : t.admits u.plan w = true) (hu' : t.admits u'.plan v = true) : j = i ∧ u' = u := by
  have hi := getElem?_of_pick hv
  have hj := getElem?_of_pick hw
  rcases Nat.lt_trichotomy j i with h | rfl | h
  · rw [admits_of_lt_pick hv h hj] at hu'
    cases hu'
  · rw [hi] at hj
    cases hj
    exact ⟨rfl, rfl⟩
  · rw [admits_of_lt_pick hw h hi] at hu
    cases hu

theorem stable_choice {c : ChoicesPlan} (hs : t.shape p = .choices c) {i : Nat} {u : VariantPlan}
    (hp : t.pick v 0 c.variants = some (i, u)) (hn : t.Normal u.plan v w) (h : t.Stable u.plan w) :
    t.Stable p w := by
  have hsuits := admits_iff.mp (admits_of_pick hp)
  obtain ⟨hw, hkind | ⟨hdouble, hint⟩⟩ := kind_of_normal hsuits hn
  · -- the kind is kept, and with it the variant
    rw [← pick_congr hkind] at hp
    exact stable_of_pick hs hp h
  · have hm := List.mem_of_getElem? (getElem?_of_pick hp)
    obtain ⟨j, u', hp'⟩ := exists_pick hs (.variant hs hm hw)
    refine stable_of_pick hs hp' ?_
    by_cases hd : t.Suits u'.plan .double
    · obtain ⟨-, rfl⟩ := pick_eq_of_admits hp hp' (admits_iff.mpr hw)
        (admits_iff.mpr (by rwa [hdouble]))
      exact h
    · -- another variant takes the integer over, and no doubles
      have hi := admits_iff.mp (admits_of_pick hp')
      rw [hint] at hi
      cases w with
      | int m => exact stable_of_normal_self (normal_int hi hd m)
      | null | bool | double | string | binary | list | dict => cases hint

/-- Normal forms are `Stable`. -/
theorem stable_of_normal (hu : t.UniqueNames p) (he : t.SmallEnums p) (ha : t.Untyped p)
    (hv : v.Regular) (h : t.Normal p v w) : t.Stable p w := by
  induction p, v using read_induction t generalizing w with
  | step p v ihv ihw =>
    have ih : ∀ q, t.Part q p → ∀ u, Value.Part u v → ∀ w, t.Normal q u w → t.Stable q w :=
      fun q hq u hm w hn => ihv u hm q (hu.part hq) (he.part hq) (ha.part hq) (hv.part hm) hn
    cases normalAs_of_normal h with
    | @leaf v w x hs hr hw =>
      have hr' := readLeaf?_of_writeLeaf? (fun e hs' => EnumPlan.returns (he.length_lt hs') v) hr hw
      exact stable_of_normal_self ⟨x, by rw [read?_leaf hs, hr'], by rw [write?_leaf hs, hw]⟩
    | @array items vs ws hs hn =>
      refine stable_array hs fun w hw => ?_
      obtain ⟨u, hm, hn⟩ := Forall₂.exists_left hn w hw
      exact ih items (part_item hs) u (.item hm) w hn
    | @object o d e x hs hr hw =>
      cases objectNormal_of_readObject? (hu.nodup hs) hv.distinct hr hw with
      | closed hnone hf =>
        refine stable_closed hs hu hnone hf fun q hq u w hk hn => ?_
        exact ih q.plan (part_property hs hq) u (.of_get? hk) w hn
      | free hsome hany => exact stable_free hs hu hsome hany hv h
      | typed hsome hany => exact absurd (ha.shape_eq hs hsome) hany
    | choice hs hp hn =>
      have hm := List.mem_of_getElem? (getElem?_of_pick hp)
      have hq := part_variant hs hm
      exact stable_choice hs hp hn (ihw _ hs _ hm (hu.part hq) (he.part hq) (ha.part hq) hv hn)

end Table

namespace Codec

/-- What is written is read again under every key, and written alike at every place. -/
theorem exists_convert_serialized {r : Registry} {settings : Settings} {name : String} {c : Codec}
    (h : generate r settings name = .ok c) (hr : r.UniqueProperties) (he : r.SmallEnums) {p : Plan}
    (hp : c.MentionsType p) (ha : c.table.Untyped p) {v w : Value} (hv : v.Regular)
    {key : Option String} {place : String} {x : Data} (hx : c.table.convert p key v = .ok x)
    (hw : c.table.serialize p x place = .ok w) :
    ∃ y w', (∀ key, c.table.convert p key w = .ok y) ∧ (∀ place, c.table.serialize p y place = .ok w') ∧
      Value.Alike Eq w' w := by
  rw [Table.convert_eq_ok_iff] at hx
  rw [Table.serialize_eq_ok_iff] at hw
  obtain ⟨w', ⟨y, hy, hw'⟩, halike⟩ := Table.stable_of_normal (uniqueNames_of_type h hr hp)
    (smallEnums_of_generate h he hp.mentions) ha hv ⟨x, hx, hw⟩
  exact ⟨y, w', fun _ => Table.convert_eq_ok_iff.mpr hy, fun _ => Table.serialize_eq_ok_iff.mpr hw', halike⟩

end Codec

theorem Populate.integral?_five : integral? (.ofInt 5) = some 5 :=
  integral?_of_exact ⟨0, one_dvd _, by decide⟩ (by decide) (by decide)

namespace Shop

variable {t : Table} {p : Plan} {name label label' : String}

/-- The variants of a price. -/
def priceVariants (label label' : String) : List VariantPlan :=
  [⟨label, .inline .integer⟩, ⟨label', .inline .int64⟩]

theorem pick_int (label label' : String) (n : Int32) :
    t.pick (.int n) 0 (priceVariants label label') = some (0, ⟨label, .inline .integer⟩) := by
  have hinteger : t.shape (.inline .integer) = .integer := by rw [Table.shape]
  refine Table.pick_eq_some_iff.mpr ⟨[], [⟨label', .inline .int64⟩], rfl, rfl, by simp, ?_⟩
  rw [Table.admits_iff]
  exact .shape (by rw [hinteger]; exact .integer)

theorem pick_double (label label' : String) (d : Double) :
    t.pick (.double d) 0 (priceVariants label label') = some (1, ⟨label', .inline .int64⟩) := by
  have hinteger : t.shape (.inline .integer) = .integer := by rw [Table.shape]
  have hint64 : t.shape (.inline .int64) = .int64 := by rw [Table.shape]
  refine Table.pick_eq_some_iff.mpr ⟨[⟨label, .inline .integer⟩], [], rfl, rfl, ?_, ?_⟩
  · rw [List.forall_mem_singleton, Table.admits_of_not_choices (by simp [hinteger]), hinteger]
    rfl
  · rw [Table.admits_iff]
    exact .shape (by rw [hint64]; exact .whole)

/-- A whole double is a price of 64 bits, and is written as an integer of 32 bits. -/
theorem normal_price (hs : t.shape p = .choices ⟨name, priceVariants label label'⟩) :
    t.Normal p (.double (.ofInt 5)) (.int 5) := by
  have hint64 : t.shape (.inline .int64) = .int64 := by rw [Table.shape]
  refine (Table.normal_choices_iff hs (pick_double label label' _)).mpr ⟨.int64 5, ?_, ?_⟩
  · rw [Table.read?_leaf (by rw [hint64]; rfl), hint64, ShapeOf.readLeaf?, Populate.int64?,
      Populate.integral?_five, Option.map_some]
  · rw [Table.write?_leaf (by rw [hint64]; rfl), hint64]
    rfl

end Shop

/-- The price is read as one of 64 bits first, and as one of 32 bits after that. -/
theorem Codec.exists_convert_serialized_price :
    Shop.registry.UniqueProperties ∧ Shop.registry.SmallEnums ∧
      ∃ c x, generate Shop.registry {} "shop" = .ok c ∧ c.MentionsType (.named 2) ∧
        c.table.Untyped (.named 2) ∧ Value.Regular (.double (.ofInt 5)) ∧
        c.table.convert (.named 2) none (.double (.ofInt 5)) = .ok x ∧
        c.table.serialize (.named 2) x "" = .ok (.int 5) ∧
        ∃ y w', (∀ key, c.table.convert (.named 2) key (.int 5) = .ok y) ∧
          (∀ place, c.table.serialize (.named 2) y place = .ok w') ∧ Value.Alike Eq w' (.int 5) := by
  obtain ⟨c, hc⟩ := Shop.exists_codec
  obtain ⟨name, label, label', hs⟩ := Shop.shape_price hc
  obtain ⟨x, hx, hw⟩ := Shop.normal_price hs
  have hp := mentionsType_entry c 2
  have ha := untyped_of_generate hc Shop.untyped hp.mentions
  have hv : Value.Regular (.double (.ofInt 5)) := Value.regular_atom rfl rfl
  have hx' : c.table.convert (.named 2) none (.double (.ofInt 5)) = .ok x :=
    Table.convert_eq_ok_iff.mpr hx
  have hw' : c.table.serialize (.named 2) x "" = .ok (.int 5) := Table.serialize_eq_ok_iff.mpr hw
  exact ⟨Shop.uniqueNames.properties, Shop.smallEnums, c, x, hc, hp, ha, hv, hx', hw',
    exists_convert_serialized hc Shop.uniqueNames.properties Shop.smallEnums hp ha hv hx' hw'⟩

end Interchange
