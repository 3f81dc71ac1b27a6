import Interchange.Proofs.Faults
import Interchange.Proofs.Openness
import Mathlib.Data.List.Perm.Subperm

/-! # The order of dictionaries makes no difference

Values that differ in it alone are read as data that is alike, and what is then written is alike; or
both are refused (`together_convert`). The fault is the same, too, unless it comes from typed extra
properties, which are read in the order of the dictionary (`sameFault`). `Codec.Equates` says this
of a whole codec.
-/

namespace Interchange

open Plan Populate Serialize

variable {R : Double → Double → Prop}

/-! ## Equality of values -/

namespace Double

/-- Doubles that are equal as numbers, where `Eq` compares their bits. -/
def Same (a b : Double) : Prop := a.same b = true

theorem Same.comparison : Comparison Same where
  symm {a b} h := by
    simp only [Same, same, Bool.and_eq_true, Bool.or_eq_true, beq_iff_eq] at h ⊢
    exact ⟨⟨h.1.2, h.1.1⟩, h.2.imp Eq.symm And.symm⟩
  ofInt n := by simp [Same, same, isNaN_ofInt]
  toInt?_eq {a b} h := by
    simp only [Same, same, Bool.and_eq_true, Bool.or_eq_true, beq_iff_eq] at h
    rcases h.2 with rfl | hzero
    · rfl
    · rw [toInt?_of_isZero hzero.1, toInt?_of_isZero hzero.2]

end Double

namespace Value

variable {v w : Value}

theorem sameItems_eq_true_iff {vs ws : List Value} :
    sameItems vs ws = true ↔ List.Forall₂ (fun v w => v.same w = true) vs ws := by
  induction vs generalizing ws with
  | nil => cases ws <;> simp [sameItems]
  | cons v vs ih => cases ws <;> simp [sameItems, ih]

theorem sameEntries_eq_true_iff {es : List (String × Value)} {d : Dict Value} :
    sameEntries es d = true ↔ ∀ e ∈ es, ∃ w, d.get? e.1 = some w ∧ e.2.same w = true := by
  induction es with
  | nil => simp [sameEntries]
  | cons e es ih =>
    obtain ⟨k, v⟩ := e
    rw [sameEntries, Bool.and_eq_true, ih, List.forall_mem_cons]
    cases d.get? k <;> simp

/-- Dictionaries of one size hold equal values under every key, if each entry of the first has its
counterpart in the second. This turns `sameEntries` into a relation between lookups. -/
theorem rel_get?_of_entries {d e : Dict Value} (hd : d.Distinct) (hsize : d.size = e.size)
    (hentries : ∀ r ∈ d.entries, ∃ w, e.get? r.1 = some w ∧ r.2.same w = true) (k : String) :
    Option.Rel (fun v w => v.same w = true) (d.get? k) (e.get? k) := by
  cases hk : d.get? k with
  | some v =>
    obtain ⟨w, hw, hsame⟩ := hentries (k, v) (Dict.mem_of_get? hk)
    rw [hw]
    exact .some hsame
  | none =>
    have hkeys : d.keys ⊆ e.keys := by
      intro i hi
      obtain ⟨r, hr, rfl⟩ := List.mem_map.mp hi
      obtain ⟨w, hw, -⟩ := hentries r hr
      exact Dict.contains_eq_true_iff.mp (Dict.contains_eq_true_iff_exists.mpr ⟨w, hw⟩)
    -- distinct keys, and as many of them: there is no room for another one
    have hlength : e.keys.length ≤ d.keys.length := by
      simp only [Dict.keys, List.length_map]
      exact Nat.le_of_eq hsize.symm
    have hperm := (hd.subperm hkeys).perm_of_length_le hlength
    rw [Dict.get?_eq_none_iff, hperm.mem_iff, ← Dict.get?_eq_none_iff] at hk
    rw [hk]
    exact .none

theorem sameHead_of_same (h : v.same w = true) : SameHead Double.Same v w := by
  cases v <;> cases w <;> simp_all [same, SameHead, Double.Same]

/-- Values that are `same` are `Alike`. -/
theorem alike_of_same (hv : v.Regular) (h : v.same w = true) : Alike Double.Same v w := by
  induction v using part_induction generalizing w with
  | step v ih =>
    have hh := sameHead_of_same h
    cases v with
    | list vs =>
      cases w with
      | list ws =>
        rw [same, sameItems_eq_true_iff] at h
        apply alike_list_iff.mpr
        exact Forall₂.imp_of_mem h fun u hu _ => ih u (.item hu) (hv.part (.item hu))
      | null | bool | int | double | string | binary | dict => exact hh.elim
    | dict d =>
      cases w with
      | dict e =>
        obtain ⟨es⟩ := d
        rw [same, Bool.and_eq_true, beq_iff_eq, sameEntries_eq_true_iff] at h
        refine alike_dict_iff.mpr fun k => ?_
        obtain ⟨hsome, hparts⟩ := optionRel_iff.mp (rel_get?_of_entries hv.distinct h.1 h.2 k)
        refine optionRel_iff.mpr ⟨hsome, fun u u' hu hu' => ?_⟩
        exact ih u (.of_get? hu) (hv.of_get? hu) (hparts u u' hu hu')
      | null | bool | int | double | string | binary | list => exact hh.elim
    | null | bool | int | double | string | binary =>
      cases w <;> first | exact hh.elim | exact alike_of_head (fun _ => rfl) (fun _ => rfl) hh

end Value

namespace Table

variable {t : Table} {p : Plan} {o : ObjectPlan} {v w v' w' : Value} {key : Option String}

/-! ## Faults -/

section Leaf

variable {α : Type} {s : ShapeOf α}

theorem isSome_readLeaf?_eq (hR : Double.Comparison R) (h : Value.Alike R v w) :
    (s.readLeaf? v).isSome = (s.readLeaf? w).isSome := by
  have himp : ∀ {v w : Value}, Value.Alike R v w →
      (s.readLeaf? w).isSome = true → (s.readLeaf? v).isSome = true := by
    intro v w h hw
    obtain ⟨x, hx⟩ := Option.isSome_iff_exists.mp hw
    obtain ⟨y, hy, -⟩ := exists_readLeaf? hR hx h
    rw [hy]
    rfl
  exact Bool.eq_iff_iff.mpr ⟨himp (h.symm hR.symm), himp h⟩

theorem refusal_eq (h : Value.SameHead R v w) (key : Option String) :
    s.refusal key v = s.refusal key w := by
  cases s with
  | enumeration e =>
    cases v <;> cases w <;> first | exact h.elim | rfl | exact congrArg (Fault.unknownMember key e) h
  | function b => cases b <;> simp only [ShapeOf.refusal, h.kind_eq]
  | boolean | integer | int64 | double | string | binary | any | array | object | choices =>
    simp only [ShapeOf.refusal, h.kind_eq]

end Leaf

/-- Values that are alike have the same `fault?`. -/
def SameFault (t : Table) (R : Double → Double → Prop) (p : Plan) (v : Value) : Prop :=
  ∀ w key, Value.Alike R v w → t.fault? p key v = t.fault? p key w

theorem arrayFault?_eq {items : Plan} (ih : ∀ u, Value.Part u v → t.SameFault R items u)
    (h : Value.Alike R v w) (key : Option String) :
    t.arrayFault? items key v = t.arrayFault? items key w := by
  cases v with
  | list vs =>
    cases w with
    | list ws =>
      have hitems : vs.map (t.fault? items none) = ws.map (t.fault? items none) := by
        apply Forall₂.map_eq
        exact Forall₂.imp_of_mem (Value.alike_list_iff.mp h) fun u hu u' => ih u (.item hu) u' none
      rw [arrayFault?, arrayFault?, hitems]
    | null | bool | int | double | string | binary | dict => exact h.head.elim
  | null | bool | int | double | string | binary | dict => cases w <;> first | exact h.head.elim | rfl

theorem slotFault?_eq {q : PropertyPlan} {u u' : Option Value} (h : Option.Rel (Value.Alike R) u u')
    (ih : ∀ v, u = some v → t.SameFault R q.plan v) : t.slotFault? q u = t.slotFault? q u' := by
  cases h with
  | none => rfl
  | @some v w h => rw [slotFault?, slotFault?, ih v rfl w (some q.name) h]

theorem extrasFault?_eq_none (ha : ∀ a, o.additional = some a → t.shape a = .any) (d : Dict Value) :
    t.extrasFault? o d = none := by
  cases hadd : o.additional with
  | none => simp only [extrasFault?, hadd]
  | some a => simp only [extrasFault?, hadd, ha a hadd]

/-- Properties are read in the order of the plan, whatever the order of the dictionary is, so the
first `slotFault?` is the same. -/
theorem findSome?_slotFault?_eq {qs : List PropertyPlan} {d e : Dict Value}
    (h : ∀ q ∈ qs, t.slotFault? q (d.get? q.name) = t.slotFault? q (e.get? q.name)) :
    qs.findSome? (fun q => t.slotFault? q (d.get? q.name)) =
      qs.findSome? fun q => t.slotFault? q (e.get? q.name) := by
  induction qs with
  | nil => rfl
  | cons q qs ih =>
    rw [List.forall_mem_cons] at h
    rw [List.findSome?_cons, List.findSome?_cons, h.1, ih h.2]

theorem objectFault?_eq (ha : ∀ a, o.additional = some a → t.shape a = .any)
    (ih : ∀ u, Value.Part u v → ∀ q ∈ o.properties, t.SameFault R q.plan u)
    (h : Value.Alike R v w) (key : Option String) :
    t.objectFault? o key v = t.objectFault? o key w := by
  cases v with
  | dict d =>
    cases w with
    | dict e =>
      rw [objectFault?, objectFault?, extrasFault?_eq_none ha, extrasFault?_eq_none ha, sources, sources,
        List.findSome?_map, List.findSome?_map]
      congr 1
      apply findSome?_slotFault?_eq
      intro q hq
      apply slotFault?_eq (Value.alike_dict_iff.mp h q.name)
      exact fun u hu => ih u (.of_get? hu) q hq
    | null | bool | int | double | string | binary | list => exact h.head.elim
  | null | bool | int | double | string | binary | list => cases w <;> first | exact h.head.elim | rfl

theorem choiceFault?_eq {c : ChoicesPlan} (ih : ∀ u ∈ c.variants, t.SameFault R u.plan v)
    (h : Value.Alike R v w) (key : Option String) : t.choiceFault? c key v = t.choiceFault? c key w := by
  rw [choiceFault?, choiceFault?, pick_congr h.kind_eq, h.kind_eq]
  cases hp : t.pick w 0 c.variants with
  | none => rfl
  | some r =>
    obtain ⟨i, u⟩ := r
    exact ih u (List.mem_of_getElem? (getElem?_of_pick hp)) w (some u.label) h

/-- Where no extra properties are typed, values that are alike have the same fault. Typed ones are
read in the order of the dictionary, and the first of them that is refused may be another one. -/
theorem sameFault (hR : Double.Comparison R) (ha : t.Untyped p) (v : Value) : t.SameFault R p v := by
  induction p, v using read_induction t with
  | step p v ihv ihw =>
    intro w key h
    cases hs : t.shape p with
    | array items =>
      rw [fault?_array hs, fault?_array hs]
      exact arrayFault?_eq (fun u hu => ihv u hu items (ha.part (part_item hs))) h key
    | object o =>
      rw [fault?_object hs, fault?_object hs]
      exact objectFault?_eq (fun a => ha.shape_eq hs)
        (fun u hu q hq => ihv u hu q.plan (ha.part (part_property hs hq))) h key
    | choices c =>
      rw [fault?_choices hs, fault?_choices hs]
      exact choiceFault?_eq (fun u hu => ihw c hs u hu (ha.part (part_variant hs hu))) h key
    | boolean | integer | int64 | double | string | binary | any | function | enumeration =>
      have hl : (t.shape p).isLeaf = true := by rw [hs]; rfl
      rw [fault?_leaf hl, fault?_leaf hl, isSome_readLeaf?_eq hR h, refusal_eq h.head]

/-! ## Data -/

theorem rel_read? (hR : Double.Comparison R) (hu : t.UniqueNames p) (hv : v.Regular) (hw : w.Regular)
    (h : Value.Alike R v w) : Option.Rel (Data.Alike R) (t.read? p v) (t.read? p w) := by
  cases hy : t.read? p w with
  | some y =>
    obtain ⟨x, hx, halike⟩ := respects hR hu w y v hy h hw hv
    rw [hx]
    exact .some halike
  | none =>
    cases hx : t.read? p v with
    | none => exact .none
    | some x =>
      obtain ⟨y, hy', -⟩ := respects hR hu v x w hx (h.symm hR.symm) hv hw
      rw [hy] at hy'
      cases hy'

/-! ## What is written -/

theorem alike_int64Value (hR : Double.Comparison R) (z : Int64) :
    Value.Alike R (int64Value z) (int64Value z) := by
  rcases int64Value_cases z with ⟨m, -, h⟩ | h
  · rw [h]
    exact Value.alike_of_head (fun _ => rfl) (fun _ => rfl) rfl
  · rw [h]
    exact Value.alike_of_head (fun _ => rfl) (fun _ => rfl) (hR.ofInt z.toInt)

theorem alike_of_writeLeaf? {α : Type} {s : ShapeOf α} (hR : Double.Comparison R) {x y : Data}
    (h : Data.Alike R x y) (hv : s.writeLeaf? x = some v) (hw : s.writeLeaf? y = some w) :
    Value.Alike R v w := by
  have hh := h.head
  cases s with
  | any =>
    cases x <;> cases hv
    cases y <;> cases hw
    exact hh
  | int64 =>
    cases x <;> cases hv
    cases y <;> cases hw
    cases hh
    exact alike_int64Value hR _
  | enumeration e =>
    cases x <;> cases hv
    cases y <;> cases hw
    exact Value.alike_of_head (fun _ => rfl) (fun _ => rfl) (congrArg e.nameOf hh)
  | function b =>
    cases b <;> cases x <;> cases hv <;> cases y <;> cases hw
    · exact hh
    · exact Value.alike_of_head (fun _ => rfl) (fun _ => rfl) hh
  | array | object | choices => cases x <;> cases hv
  | boolean | integer | double | string | binary =>
    cases x <;> cases hv
    cases y <;> cases hw
    exact Value.alike_of_head (fun _ => rfl) (fun _ => rfl) hh

/-- Plans that write alike what they read from values that are alike: `Normal` respects `Alike`. -/
def WritesAlike (t : Table) (R : Double → Double → Prop) (p : Plan) (v : Value) : Prop :=
  ∀ w v' w', Value.Alike R v w → v.Regular → w.Regular → t.Normal p v v' → t.Normal p w w' →
    Value.Alike R v' w'

theorem alike_of_normalItems {items : Plan} {vs ws vs' ws' : List Value}
    (ih : ∀ v ∈ vs, t.WritesAlike R items v) (hv : ∀ v ∈ vs, v.Regular) (hw : ∀ w ∈ ws, w.Regular)
    (h : List.Forall₂ (Value.Alike R) vs ws) (hn : List.Forall₂ (t.Normal items) vs vs')
    (hn' : List.Forall₂ (t.Normal items) ws ws') : List.Forall₂ (Value.Alike R) vs' ws' := by
  induction h generalizing vs' ws' with
  | nil =>
    cases hn
    cases hn'
    exact .nil
  | cons h _ ihs =>
    rw [List.forall_mem_cons] at ih hv hw
    cases hn with
    | cons hn hns =>
      cases hn' with
      | cons hn' hns' =>
        exact .cons (ih.1 _ _ _ h hv.1 hw.1 hn hn') (ihs ih.2 hv.2 hw.2 hns hns')

section Object

variable {d e d' e' : Dict Value}

theorem rel_of_slotNormal {q : PropertyPlan} {u u' a b : Option Value} (h : t.SlotNormal q u a)
    (h' : t.SlotNormal q u' b) (hu : Option.Rel (Value.Alike R) u u')
    (ih : ∀ v w v' w', u = some v → u' = some w → t.Normal q.plan v v' → t.Normal q.plan w w' →
      Value.Alike R v' w') : Option.Rel (Value.Alike R) a b := by
  cases h with
  | absent =>
    cases hu
    cases h'
    exact .none
  | ignored hi =>
    cases hu
    cases h' with
    | ignored => exact .some Value.alike_empty
    | given hi' =>
      rw [hi] at hi'
      cases hi'
  | given hi hn =>
    cases hu
    cases h' with
    | ignored hi' =>
      rw [hi] at hi'
      cases hi'
    | given _ hn' => exact .some (ih _ _ _ _ rfl rfl hn hn')

theorem Declared.alike_of_alike (h : t.Declared o d d') (h' : t.Declared o e e')
    (hde : ∀ k, Option.Rel (Value.Alike R) (d.get? k) (e.get? k))
    (ih : ∀ q ∈ o.properties, ∀ v w v' w', d.get? q.name = some v → e.get? q.name = some w →
      t.Normal q.plan v v' → t.Normal q.plan w w' → Value.Alike R v' w') :
    Value.Alike R (.dict d') (.dict e') := by
  refine Value.alike_dict_iff.mpr fun k => ?_
  by_cases hk : ∃ q ∈ o.properties, q.name = k
  · obtain ⟨q, hq, rfl⟩ := hk
    exact rel_of_slotNormal (h.slots q hq) (h'.slots q hq) (hde q.name) (ih q hq)
  · have hnone : ∀ {d f : Dict Value}, t.Declared o d f → f.get? k = none := by
      intro d f hf
      by_contra hw
      obtain ⟨w, hw⟩ := Option.ne_none_iff_exists'.mp hw
      exact hk (hf.names k w hw)
    rw [hnone h, hnone h']
    exact .none

theorem rel_of_entries {a : Plan} {u u' b b' : Option Value} (h : Option.Rel (t.Normal a) u b)
    (h' : Option.Rel (t.Normal a) u' b') (hu : Option.Rel (Value.Alike R) u u')
    (ih : ∀ v w v' w', u = some v → u' = some w → t.Normal a v v' → t.Normal a w w' →
      Value.Alike R v' w') : Option.Rel (Value.Alike R) b b' := by
  cases hu with
  | none =>
    cases h
    cases h'
    exact .none
  | some =>
    cases h with
    | some hn =>
      cases h' with
      | some hn' => exact .some (ih _ _ _ _ rfl rfl hn hn')

theorem alike_of_objectNormal (hs : t.shape p = .object o) (hu : t.UniqueNames p)
    (ih : ∀ u, Value.Part u (.dict d) → ∀ q, t.UniqueNames q → t.WritesAlike R q u)
    (hd : (Value.dict d).Regular) (he : (Value.dict e).Regular)
    (h : Value.Alike R (.dict d) (.dict e)) (hn : t.Normal p (.dict d) (.dict d'))
    (hn' : t.Normal p (.dict e) (.dict e')) (hd' : t.ObjectNormal o d d') (he' : t.ObjectNormal o e e') :
    Value.Alike R (.dict d') (.dict e') := by
  have hget := Value.alike_dict_iff.mp h
  have hpart : ∀ q, t.Part q p → ∀ k v w v' w', d.get? k = some v → e.get? k = some w →
      t.Normal q v v' → t.Normal q w w' → Value.Alike R v' w' := by
    intro q hq k v w v' w' hv hw
    have halike := (optionRel_iff.mp (hget k)).2 v w hv hw
    exact ih v (.of_get? hv) q (hu.part hq) w v' w' halike (hd.of_get? hv) (he.of_get? hw)
  cases hd' with
  | closed ha hf =>
    cases he' with
    | closed _ hf' =>
      exact hf.alike_of_alike hf' hget fun q hq => hpart q.plan (part_property hs hq) q.name
    | free ha' | typed ha' =>
      rw [ha] at ha'
      cases ha'
  | free ha hany hf =>
    -- both are written as what they are read from
    have hback := alike_of_free hs hu ha hany hd hn
    have hback' := alike_of_free hs hu ha hany he hn'
    have hleft := hback.trans h fun a b c hab hbc => hab ▸ hbc
    exact hleft.trans (hback'.symm Eq.symm) fun a b c hab hbc => hbc ▸ hab
  | typed ha hany distinct entries =>
    cases he' with
    | closed ha' =>
      rw [ha] at ha'
      cases ha'
    | free ha' hany' =>
      rw [ha] at ha'
      cases ha'
      exact absurd hany' hany
    | typed ha' _ _ entries' =>
      rw [ha] at ha'
      cases ha'
      refine Value.alike_dict_iff.mpr fun k => rel_of_entries (entries k) (entries' k) (hget k) ?_
      exact hpart _ (part_additional hs ha) k

end Object

theorem writesAlike (hR : Double.Comparison R) (hu : t.UniqueNames p) (v : Value) :
    t.WritesAlike R p v := by
  induction p, v using read_induction t with
  | step p v ihv ihw =>
    intro w v' w' h hv hw hn hn'
    cases normalAs_of_normal hn with
    | leaf hs hr hwrite =>
      obtain ⟨y, hy, hwrite'⟩ := hn'
      rw [read?_leaf hs] at hy
      rw [write?_leaf hs] at hwrite'
      obtain ⟨x, hx, halike⟩ := exists_readLeaf? hR hy h
      rw [hr] at hx
      cases hx
      exact alike_of_writeLeaf? hR halike hwrite hwrite'
    | @array items vs vs' hs hall =>
      cases normalAs_of_normal hn' with
      | leaf hs' | object hs' | choice hs' =>
        rw [hs] at hs'
        cases hs'
      | array hs' hall' =>
        rw [hs] at hs'
        cases hs'
        apply Value.alike_list_iff.mpr
        exact alike_of_normalItems (fun u hm => ihv u (.item hm) items (hu.part (part_item hs)))
          (Value.regular_list_iff.mp hv) (Value.regular_list_iff.mp hw) (Value.alike_list_iff.mp h)
          hall hall'
    | @object o d d' x hs hr hwrite =>
      cases normalAs_of_normal hn' with
      | leaf hs' | array hs' | choice hs' =>
        rw [hs] at hs'
        cases hs'
      | object hs' hr' hwrite' =>
        rw [hs] at hs'
        cases hs'
        exact alike_of_objectNormal hs hu (fun u hm q hq => ihv u hm q hq) hv hw h hn hn'
          (objectNormal_of_readObject? (hu.nodup hs) hv.distinct hr hwrite)
          (objectNormal_of_readObject? (hu.nodup hs) hw.distinct hr' hwrite')
    | @choice c i u v v' hs hp hn =>
      rw [← pick_congr h.kind_eq.symm] at hp
      have hn' := (normal_choices_iff hs hp).mp hn'
      have hm := List.mem_of_getElem? (getElem?_of_pick hp)
      exact ihw c hs u hm (hu.part (part_variant hs hm)) w v' w' h hv hw hn hn'

/-! ## Both runs -/

/-- Data that makes no difference: it is `Alike`, and it is written alike. -/
structure Twins (t : Table) (R : Double → Double → Prop) (p : Plan) (x y : Data) : Prop where
  alike : Data.Alike R x y
  written : ∀ place place', ∃ v w, t.serialize p x place = .ok v ∧ t.serialize p y place' = .ok w ∧
    Value.Alike R v w

end Table

/-- Two results of one kind: both are there and are related, or both are errors. Where that is asked
for, it is the same error. -/
inductive Together {ε α : Type} (exact : Prop) (A : α → α → Prop) : Except ε α → Except ε α → Prop
  | ok {a b : α} (h : A a b) : Together exact A (.ok a) (.ok b)
  | error {e f : ε} (h : exact → e = f) : Together exact A (.error e) (.error f)

section Together

variable {ε ε' α β : Type} {exact : Prop} {A : α → α → Prop} {x y : Except ε α}

theorem Together.mapError (h : Together exact A x y) (f : ε → ε') :
    Together exact A (x.mapError f) (y.mapError f) := by
  cases h with
  | ok h => exact .ok h
  | error h => exact .error fun he => congrArg f (h he)

theorem Together.imp {A' : α → α → Prop} (h : Together exact A x y) (hA : ∀ a b, A a b → A' a b) :
    Together exact A' x y := by
  cases h with
  | ok h => exact .ok (hA _ _ h)
  | error h => exact .error h

theorem Together.of_map {A : β → β → Prop} {f : α → β} (h : Together exact A (x.map f) (y.map f)) :
    Together exact (fun a b => A (f a) (f b)) x y := by
  cases x with
  | ok a =>
    cases y with
    | ok b =>
      cases h with
      | ok h => exact .ok h
    | error => cases h
  | error e =>
    cases y with
    | ok => cases h
    | error e' =>
      cases h with
      | error h => exact .error h

/-- Runs that start with the same check fail together if the check fails. -/
theorem together_check {check : Except ε Unit} (h : check = .ok () → Together exact A x y) :
    Together exact A (check >>= fun _ => x) (check >>= fun _ => y) := by
  cases check with
  | ok => exact h rfl
  | error e => exact .error fun _ => rfl

end Together

namespace Table

variable {t : Table} {p : Plan} {v w : Value}

/-- Values that are alike are read as `Twins`, or are both refused. Where no extra properties are
typed (`Untyped`) the fault is the same. -/
theorem together_convert (hR : Double.Comparison R) (hu : t.UniqueNames p) (hv : v.Regular)
    (hw : w.Regular) (h : Value.Alike R v w) (key : Option String) :
    Together (t.Untyped p) (t.Twins R p) (t.convert p key v) (t.convert p key w) := by
  have hrel := rel_read? hR hu hv hw h
  cases hx : t.read? p v with
  | none =>
    rw [hx] at hrel
    obtain ⟨f, hf⟩ := convert_eq_error_of_none hx key
    obtain ⟨g, hg⟩ := convert_eq_error_of_none (eq_none_of_rel hrel) key
    rw [hf, hg]
    refine .error fun ha => ?_
    have hfault := sameFault hR ha v w key h
    rw [fault?, fault?, hf, hg] at hfault
    exact Option.some.inj hfault
  | some x =>
    rw [hx] at hrel
    obtain ⟨y, hy, halike⟩ := exists_of_rel_some hrel
    rw [convert_eq_ok_iff.mpr hx, convert_eq_ok_iff.mpr hy]
    refine .ok ⟨halike, fun place place' => ?_⟩
    obtain ⟨v', hv', hn⟩ := exists_normal hu hx
    obtain ⟨w', hw', hn'⟩ := exists_normal hu hy
    refine ⟨v', w', serialize_eq_ok_iff.mpr hv', serialize_eq_ok_iff.mpr hw', ?_⟩
    exact writesAlike hR hu v w v' w' h hv hw hn hn'

end Table

/-! ## Types -/

/-- Objects that are `Table.Twins`, and make no difference to the operations of their type either.
-/
structure ObjectType.Twins (t : ObjectType) (R : Double → Double → Prop) (a b : Object) : Prop where
  data : t.table.Twins R (.named t.id) (.object a) (.object b)
  toValue : Together True (Value.Alike R) (t.toValue a) (t.toValue b)

/-- The same as `ObjectType.Twins` for choices. -/
structure ChoicesType.Twins (t : ChoicesType) (R : Double → Double → Prop) (a b : Choice) : Prop where
  data : t.table.Twins R (.named t.id) (.choice a) (.choice b)
  toValue : Together True (Value.Alike R) (t.toValue a) (t.toValue b)

namespace EntryType.Presents

variable {t : EntryType} {α : Type} {wrap : α → Data} {read : Value → Except CodecError α}
  {write : α → Except CodecError Value} {v w : Value}

theorem together_write (h : t.Presents wrap read write) {a b : α}
    (hab : t.codec.table.Twins R t.plan (wrap a) (wrap b)) :
    Together True (Value.Alike R) (write a) (write b) := by
  rw [h.write_eq, h.write_eq, toValue, toValue]
  refine together_check fun _ => ?_
  obtain ⟨v, w, hv, hw, halike⟩ := hab.written t.name t.name
  rw [hv, hw]
  exact .ok halike

theorem together_read (h : t.Presents wrap read write)
    (hconvert : Together (t.codec.table.Untyped t.plan) (t.codec.table.Twins R t.plan)
      (t.codec.table.convert t.plan none v) (t.codec.table.convert t.plan none w)) :
    Together (t.codec.table.Untyped t.plan) (fun a b => t.codec.table.Twins R t.plan (wrap a) (wrap b))
      (read v) (read w) := by
  have hread : Together (t.codec.table.Untyped t.plan) (t.codec.table.Twins R t.plan)
      (t.ofValue v) (t.ofValue w) := together_check fun _ => hconvert.mapError t.codec.failed
  rw [← h.map_read, ← h.map_read] at hread
  exact hread.of_map

end EntryType.Presents

theorem ObjectType.together_ofValue {t : ObjectType} (hs : t.table.shape (.named t.id) = .object t.plan)
    (h : Together (t.table.Untyped (.named t.id)) (t.table.Twins R (.named t.id))
      (t.table.convert (.named t.id) none v) (t.table.convert (.named t.id) none w)) :
    Together (t.table.Untyped (.named t.id)) (t.Twins R) (t.ofValue v) (t.ofValue w) :=
  ((presents hs).together_read h).imp fun _ _ hdata => ⟨hdata, (presents hs).together_write hdata⟩

theorem ChoicesType.together_ofValue {t : ChoicesType} (hs : t.table.shape (.named t.id) = .choices t.plan)
    (h : Together (t.table.Untyped (.named t.id)) (t.table.Twins R (.named t.id))
      (t.table.convert (.named t.id) none v) (t.table.convert (.named t.id) none w)) :
    Together (t.table.Untyped (.named t.id)) (t.Twins R) (t.ofValue v) (t.ofValue w) :=
  ((presents hs).together_read h).imp fun _ _ hdata => ⟨hdata, (presents hs).together_write hdata⟩

namespace Codec

variable {r : Registry} {settings : Settings} {name : String} {c : Codec} {v w : Value}

/-- A codec does not tell two values apart. Each of its plans and types reads both of them as twins
or refuses both of them (`Together`). Faults, with their kind and message, are the same where no
extra properties are typed. -/
structure Equates (c : Codec) (R : Double → Double → Prop) (v w : Value) : Prop where
  plans : ∀ p, c.MentionsType p → ∀ key, Together (c.table.Untyped p) (c.table.Twins R p)
    (c.table.convert p key v) (c.table.convert p key w)
  objects : ∀ type t, c.object type = .ok t →
    Together (c.table.Untyped (.named t.id)) (t.Twins R) (t.ofValue v) (t.ofValue w)
  manifestRoot : ∀ t, c.manifestRoot = .ok t →
    Together (c.table.Untyped (.named t.id)) (t.Twins R) (t.ofValue v) (t.ofValue w)
  choices : ∀ type t, c.choices type = .ok t →
    Together (c.table.Untyped (.named t.id)) (t.Twins R) (t.ofValue v) (t.ofValue w)

theorem equates_of_alike (hR : Double.Comparison R) (h : generate r settings name = .ok c)
    (hr : r.UniqueProperties) (hv : v.Regular) (hw : w.Regular) (halike : Value.Alike R v w) :
    c.Equates R v w := by
  have hplan : ∀ p, c.MentionsType p → ∀ key, Together (c.table.Untyped p) (c.table.Twins R p)
      (c.table.convert p key v) (c.table.convert p key w) :=
    fun p hp => Table.together_convert hR (uniqueNames_of_type h hr hp) hv hw halike
  refine ⟨hplan, ?_, ?_, ?_⟩
  · intro type t ht
    obtain ⟨rfl, hs⟩ := shape_of_object ht
    exact ObjectType.together_ofValue hs (hplan _ (mentionsType_entry t.codec t.id) none)
  · intro t ht
    obtain ⟨rfl, hs⟩ := shape_of_manifestRoot ht
    exact ObjectType.together_ofValue hs (hplan _ (mentionsType_entry t.codec t.id) none)
  · intro type t ht
    obtain ⟨rfl, hs⟩ := shape_of_choices ht
    exact ChoicesType.together_ofValue hs (hplan _ (mentionsType_entry t.codec t.id) none)

/-- Values that differ in the order of their dictionaries alone (`Alike`), at any depth, are the
same to a generated codec. So are values that are equal, where doubles are compared as numbers
(`Double.Same`). -/
theorem indifferent_of_generate (h : generate r settings name = .ok c) (hr : r.UniqueProperties)
    (hv : v.Regular) (hw : w.Regular) :
    (Value.Alike Eq v w → c.Equates Eq v w) ∧ (v.same w = true → c.Equates Double.Same v w) ∧
      (r.Untyped → ∀ p, c.MentionsType p → c.table.Untyped p) := by
  refine ⟨equates_of_alike .eq h hr hv hw, fun hsame => ?_, fun ha p hp => ?_⟩
  · exact equates_of_alike Double.Same.comparison h hr hv hw (Value.alike_of_same hv hsame)
  · exact untyped_of_generate h ha hp.mentions

end Codec

namespace Journal

def given : Value := .dict ⟨[("count", .double (.ofInt 5)), ("x", .dict counted)]⟩

/-- The same entries, in another order at both levels. -/
def turned : Value :=
  .dict ⟨[("x", .dict ⟨[("x", .int 1), ("count", .double (.ofInt 5))]⟩), ("count", .double (.ofInt 5))]⟩

theorem regular_given : given.Regular :=
  Value.regular_pair (by decide) (Value.regular_atom rfl rfl) regular_counted

theorem regular_turned : turned.Regular := by
  refine Value.regular_pair (by decide) ?_ (Value.regular_atom rfl rfl)
  exact Value.regular_pair (by decide) (Value.regular_atom rfl rfl) (Value.regular_atom rfl rfl)

theorem alike_turned : Value.Alike Eq given turned := by
  have hrefl : ∀ v, Value.Alike Eq v v := Value.Alike.refl fun _ => rfl
  exact Value.alike_swap (by decide) (hrefl _) (Value.alike_swap (by decide) (hrefl _) (hrefl _))

end Journal

theorem Codec.indifferent_of_generate_journal :
    Journal.registry.UniqueProperties ∧ Journal.given.Regular ∧ Journal.turned.Regular ∧
      Value.Alike Eq Journal.given Journal.turned ∧ Journal.given.same Journal.turned = true ∧
      Journal.registry.Untyped ∧ ∃ c, generate Journal.registry {} "journal" = .ok c ∧
        c.Equates Eq Journal.given Journal.turned ∧ c.Equates Double.Same Journal.given Journal.turned ∧
        ∀ p, c.MentionsType p → c.table.Untyped p := by
  obtain ⟨c, hgen, -⟩ := Journal.exists_compiled
  have hsame : Journal.given.same Journal.turned = true := by decide
  have huntyped : Journal.registry.Untyped := by decide
  have h := indifferent_of_generate hgen Journal.uniqueNames.properties Journal.regular_given
    Journal.regular_turned
  exact ⟨Journal.uniqueNames.properties, Journal.regular_given, Journal.regular_turned,
    Journal.alike_turned, hsame, huntyped, c, hgen, h.1 Journal.alike_turned, h.2.1 hsame,
    h.2.2 huntyped⟩

end Interchange
