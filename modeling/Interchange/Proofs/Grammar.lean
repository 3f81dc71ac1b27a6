import Interchange.Proofs.Double
import Interchange.Proofs.Enumeration
import Interchange.Proofs.Scope

/-! # Which values a plan takes, as a grammar

`Fits` says by rules, one for each shape, which values a plan takes. `read?` yields data for exactly
these (`isSome_read?_iff`), whatever key a value stands under and however faults are reported.
-/

namespace Interchange

open Plan Populate

/-! ## The grammar -/

/-- The kinds of value that suit a shape, the relation that `takes` decides. Choices leave that to
their variants. -/
inductive Plan.ShapeOf.Suits {α : Type} : ShapeOf α → Value.Kind → Prop
  | boolean : Suits .boolean .bool
  | integer : Suits .integer .int
  | int64 : Suits .int64 .int
  | whole : Suits .int64 .double
  | double : Suits .double .double
  | string : Suits .string .string
  | enumeration (e : EnumPlan) : Suits (.enumeration e) .string
  | serializable : Suits (.function true) .string
  | function : Suits (.function false) .dict
  | binary : Suits .binary .binary
  | array (items : α) : Suits (.array items) .list
  | object (o : ObjectOf α) : Suits (.object o) .dict
  | any (k : Value.Kind) : Suits .any k

/-- Values that fit a shape without parts, those that `readLeaf?` reads. -/
inductive Plan.ShapeOf.FitsLeaf {α : Type} : ShapeOf α → Value → Prop
  | boolean (b : Bool) : FitsLeaf .boolean (.bool b)
  | integer (n : Int32) : FitsLeaf .integer (.int n)
  | int64 (n : Int32) : FitsLeaf .int64 (.int n)
  | whole {d : Double} {n : Int} (finite : d.isFinite = true) (value : d.value = n)
      (low : -0x8000000000000000 ≤ n) (high : n ≤ 0x8000000000000000) : FitsLeaf .int64 (.double d)
  | double (d : Double) : FitsLeaf .double (.double d)
  | widened (n : Int32) : FitsLeaf .double (.int n)
  | string (s : String) : FitsLeaf .string (.string s)
  | enumeration {e : EnumPlan} {s : String} (h : s ∈ e.members) : FitsLeaf (.enumeration e) (.string s)
  | serializable (s : String) : FitsLeaf (.function true) (.string s)
  | function : FitsLeaf (.function false) (.dict ∅)
  | binary (bytes : List UInt8) : FitsLeaf .binary (.binary bytes)
  | any (v : Value) : FitsLeaf .any v

namespace Table

/-- The kinds of value that suit a plan, the relation that `admits` decides. -/
inductive Suits (t : Table) : Plan → Value.Kind → Prop
  | shape {p : Plan} {k : Value.Kind} (h : (t.shape p).Suits k) : Suits t p k
  | variant {p : Plan} {c : ChoicesPlan} {w : VariantPlan} {k : Value.Kind}
      (hs : t.shape p = .choices c) (hw : w ∈ c.variants) (h : Suits t w.plan k) : Suits t p k

/-- Values that fit a plan. In an object required properties are given, and those that are given
fit, except that an optional function takes anything; every entry, declared or not, fits the plan of
additional properties. A choice takes what fits the first variant that suits its kind. -/
inductive Fits (t : Table) : Plan → Value → Prop
  | leaf {p : Plan} {v : Value} (h : (t.shape p).FitsLeaf v) : Fits t p v
  | array {p items : Plan} {vs : List Value} (hs : t.shape p = .array items)
      (content : ∀ v ∈ vs, Fits t items v) : Fits t p (.list vs)
  | object {p : Plan} {o : ObjectPlan} {d : Dict Value} (hs : t.shape p = .object o)
      (required : ∀ q ∈ o.properties, q.optional = false → d.contains q.name = true)
      (given : ∀ q ∈ o.properties, ∀ v, d.get? q.name = some v →
        ¬(q.optional = true ∧ t.shape q.plan = .function false) → Fits t q.plan v)
      (entries : ∀ a, o.additional = some a → ∀ e ∈ d.entries, Fits t a e.2) : Fits t p (.dict d)
  | choices {p : Plan} {c : ChoicesPlan} {w : VariantPlan} {before after : List VariantPlan}
      {v : Value} (hs : t.shape p = .choices c) (split : c.variants = before ++ w :: after)
      (first : ∀ u ∈ before, ¬t.Suits u.plan v.kind) (suits : t.Suits w.plan v.kind)
      (content : Fits t w.plan v) : Fits t p v

variable {t : Table} {p : Plan} {v : Value}

/-! ## Kinds -/

theorem takes_iff {α : Type} {s : ShapeOf α} {k : Value.Kind} : s.takes k = true ↔ s.Suits k := by
  constructor
  · intro h
    cases s with
    | any => exact .any k
    | function b =>
      cases b <;>
      · simp only [ShapeOf.takes, beq_iff_eq] at h
        subst h
        constructor
    | int64 =>
      simp only [ShapeOf.takes, Bool.or_eq_true, beq_iff_eq] at h
      rcases h with rfl | rfl <;> constructor
    | choices => cases h
    | boolean | integer | double | string | binary | enumeration | array | object =>
      simp only [ShapeOf.takes, beq_iff_eq] at h
      subst h
      constructor
  · intro h
    cases h <;> rfl

theorem admits_of_not_choices (h : ∀ c, t.shape p ≠ .choices c) :
    t.admits p v = (t.shape p).takes v.kind := by
  rw [admits]
  split
  · exact absurd ‹_› (h _)
  · rfl

theorem admits_iff : t.admits p v = true ↔ t.Suits p v.kind := by
  constructor
  · intro h
    induction p, v using read_induction t with
    | step p v _ ih =>
      by_cases hc : ∃ c, t.shape p = .choices c
      · obtain ⟨c, hs⟩ := hc
        rw [admits_of_choices hs, List.any_eq_true] at h
        obtain ⟨w, hw, h⟩ := h
        exact .variant hs hw (ih c hs w hw h)
      · rw [admits_of_not_choices fun c hs => hc ⟨c, hs⟩] at h
        exact .shape (takes_iff.mp h)
  · intro h
    generalize hk : v.kind = k at h
    induction h with
    | @shape p k h =>
      rw [admits_of_not_choices, hk, takes_iff]
      · exact h
      · intro c hs
        rw [hs] at h
        cases h
    | variant hs hw _ ih =>
      rw [admits_of_choices hs, List.any_eq_true]
      exact ⟨_, hw, ih hk⟩

theorem admits_eq_false_iff : t.admits p v = false ↔ ¬t.Suits p v.kind := by
  rw [← admits_iff, Bool.not_eq_true]

theorem admits_congr {w : Value} (h : w.kind = v.kind) (p : Plan) : t.admits p w = t.admits p v := by
  rw [Bool.eq_iff_iff, admits_iff, admits_iff, h]

/-- Which variant is picked depends on the kind of the value only. -/
theorem pick_congr {w : Value} (h : w.kind = v.kind) (i : Nat) (ws : List VariantPlan) :
    t.pick w i ws = t.pick v i ws := by
  induction ws generalizing i with
  | nil => rfl
  | cons u ws ih => rw [pick, pick, admits_congr h, ih]

theorem exists_pick {c : ChoicesPlan} (hs : t.shape p = .choices c) (h : t.Suits p v.kind) :
    ∃ i u, t.pick v 0 c.variants = some (i, u) := by
  have hpick : ∀ (ws : List VariantPlan) (k : Nat), (∃ w ∈ ws, t.admits w.plan v = true) →
      ∃ i u, t.pick v k ws = some (i, u) := by
    intro ws
    induction ws with
    | nil => simp
    | cons u ws ih =>
      intro k hw
      rw [pick]
      split
      · exact ⟨k, u, rfl⟩
      · rename_i hu
        refine ih (k + 1) ?_
        obtain ⟨w, hw, ha⟩ := hw
        rcases List.mem_cons.mp hw with rfl | hw
        · exact absurd ha hu
        · exact ⟨w, hw, ha⟩
  rw [← admits_iff, admits_of_choices hs, List.any_eq_true] at h
  exact hpick c.variants 0 h

theorem suits_iff_of_isLeaf {k : Value.Kind} (hs : (t.shape p).isLeaf = true) :
    t.Suits p k ↔ (t.shape p).Suits k := by
  constructor
  · intro h
    cases h with
    | shape h => exact h
    | variant hs' =>
      rw [hs'] at hs
      cases hs
  · exact .shape

/-! ## Shapes without parts -/

theorem isSome_integral?_iff {d : Double} :
    (integral? d).isSome = true ↔
      ∃ n : Int, d.toInt? = some n ∧ -0x8000000000000000 ≤ n ∧ n ≤ 0x8000000000000000 := by
  unfold integral?
  cases d.toInt? with
  | none => simp
  | some n =>
    simp only [Option.some.injEq, exists_eq_left']
    split <;> simp_all

theorem isSome_readLeaf?_iff {α : Type} {s : ShapeOf α}
    (he : ∀ e, s = .enumeration e → e.members.length < 0xffffffff) {v : Value} :
    (s.readLeaf? v).isSome = true ↔ s.FitsLeaf v := by
  constructor
  · intro h
    cases s with
    | any => exact .any v
    | array | object | choices => cases h
    | int64 =>
      cases v with
      | int n => exact .int64 n
      | double d =>
        rw [ShapeOf.readLeaf?, Option.isSome_map, int64?, isSome_integral?_iff] at h
        obtain ⟨n, hd, low, high⟩ := h
        obtain ⟨finite, value⟩ := Double.toInt?_eq_some_iff.mp hd
        exact .whole finite value low high
      | _ => cases h
    | enumeration e =>
      cases v with
      | string s =>
        rw [ShapeOf.readLeaf?, Option.isSome_map, EnumPlan.isSome_member?_iff (he e rfl)] at h
        exact .enumeration h
      | _ => cases h
    | function b =>
      cases b with
      | true => cases v <;> first | exact .serializable _ | cases h
      | false =>
        cases v with
        | dict d =>
          obtain ⟨es⟩ := d
          cases es with
          | nil => exact .function
          | cons => cases h
        | _ => cases h
    | double => cases v <;> first | exact .double _ | exact .widened _ | cases h
    | boolean | integer | string | binary => cases v <;> first | constructor | cases h
  · intro h
    cases h with
    | whole finite value low high =>
      rw [ShapeOf.readLeaf?, Option.isSome_map, int64?, isSome_integral?_iff]
      exact ⟨_, Double.toInt?_eq_some_iff.mpr ⟨finite, value⟩, low, high⟩
    | enumeration h =>
      rw [ShapeOf.readLeaf?, Option.isSome_map, EnumPlan.isSome_member?_iff (he _ rfl)]
      exact h
    | _ => rfl

/-! ## Fitting, by shapes -/

theorem fits_leaf_iff (hs : (t.shape p).isLeaf = true) : t.Fits p v ↔ (t.shape p).FitsLeaf v := by
  constructor
  · intro h
    cases h with
    | leaf h => exact h
    | array hs' | object hs' | choices hs' =>
      rw [hs'] at hs
      cases hs
  · exact .leaf

theorem fits_array_iff {items : Plan} (hs : t.shape p = .array items) :
    t.Fits p v ↔ ∃ vs, v.list? = some vs ∧ ∀ u ∈ vs, t.Fits items u := by
  constructor
  · intro h
    cases h with
    | leaf h =>
      rw [hs] at h
      cases h
    | array hs' content =>
      rw [hs] at hs'
      cases hs'
      exact ⟨_, rfl, content⟩
    | object hs' | choices hs' =>
      rw [hs] at hs'
      cases hs'
  · rintro ⟨vs, hv, content⟩
    cases v <;> cases hv
    exact .array hs content

theorem fits_object_iff {o : ObjectPlan} (hs : t.shape p = .object o) :
    t.Fits p v ↔ ∃ d, v.dict? = some d ∧
      (∀ q ∈ o.properties, q.optional = false → d.contains q.name = true) ∧
      (∀ q ∈ o.properties, ∀ u, d.get? q.name = some u →
        ¬(q.optional = true ∧ t.shape q.plan = .function false) → t.Fits q.plan u) ∧
      ∀ a, o.additional = some a → ∀ e ∈ d.entries, t.Fits a e.2 := by
  constructor
  · intro h
    cases h with
    | leaf h =>
      rw [hs] at h
      cases h
    | object hs' required given entries =>
      rw [hs] at hs'
      cases hs'
      exact ⟨_, rfl, required, given, entries⟩
    | array hs' | choices hs' =>
      rw [hs] at hs'
      cases hs'
  · rintro ⟨d, hv, required, given, entries⟩
    cases v <;> cases hv
    exact .object hs required given entries

/-- A choice takes what fits the variant that `pick` finds; it does not go on to the next. -/
theorem fits_choices_iff {c : ChoicesPlan} (hs : t.shape p = .choices c) :
    t.Fits p v ↔ ∃ i w, t.pick v 0 c.variants = some (i, w) ∧ t.Fits w.plan v := by
  constructor
  · intro h
    cases h with
    | leaf h =>
      rw [hs] at h
      cases h
    | choices hs' split first suits content =>
      rw [hs] at hs'
      cases hs'
      refine ⟨_, _, pick_eq_some_iff.mpr ⟨_, _, split, rfl, fun u hu => ?_, admits_iff.mpr suits⟩, content⟩
      exact admits_eq_false_iff.mpr (first u hu)
    | array hs' | object hs' =>
      rw [hs] at hs'
      cases hs'
  · rintro ⟨i, w, hp, content⟩
    obtain ⟨before, after, split, -, first, suits⟩ := pick_eq_some_iff.mp hp
    exact .choices hs split (fun u hu => admits_eq_false_iff.mp (first u hu)) (admits_iff.mp suits) content

/-! ## Reading -/

theorem isSome_readSlot?_iff {q : PropertyPlan} {u : Option Value} :
    (t.readSlot? q u).isSome = true ↔ (q.optional = false → u.isSome = true) ∧
      ∀ v, u = some v → ¬(q.optional = true ∧ t.shape q.plan = .function false) →
        (t.read? q.plan v).isSome = true := by
  cases u with
  | none => cases hq : q.optional <;> simp [readSlot?, hq]
  | some v =>
    have hi : t.ignores q = true ↔ q.optional = true ∧ t.shape q.plan = .function false := by
      rw [ignores, Bool.and_eq_true, ShapeOf.isFunction_iff]
    by_cases h : t.ignores q = true <;> simp [readSlot?, h, ← hi]

theorem isSome_readObject?_iff {o : ObjectPlan} {d : Dict Value} :
    (t.readObject? o d).isSome = true ↔
      (∀ q ∈ o.properties, (t.readSlot? q (d.get? q.name)).isSome = true) ∧
        (t.readExtras? o d).isSome = true := by
  have hs : (t.readSlots? (sources o d)).isSome = true ↔
      ∀ q ∈ o.properties, (t.readSlot? q (d.get? q.name)).isSome = true := by
    rw [readSlots?, isSome_mapM, sources, List.forall_mem_map]
  rw [← hs, readObject?]
  cases t.readSlots? (sources o d) <;> simp

theorem isSome_readExtras?_iff {o : ObjectPlan} {d : Dict Value} :
    (t.readExtras? o d).isSome = true ↔
      ∀ a, o.additional = some a → ∀ e ∈ d.entries, (t.read? a e.2).isSome = true := by
  unfold readExtras?
  split
  · rename_i ha
    simp [ha]
  · rename_i a ha
    simp only [ha, Option.some.injEq, forall_eq']
    split
    · rename_i hs
      have hr : ∀ v, t.read? a v = some (.any v) := fun v => by
        rw [read?_leaf (by rw [hs]; rfl), hs]
        rfl
      simp [hr]
    · rw [Option.isSome_map, readEntries?, isSome_mapM]
      simp only [Option.isSome_map]

theorem isSome_read?_array_iff {items : Plan} (hs : t.shape p = .array items)
    (ih : ∀ u, Value.Part u v → ((t.read? items u).isSome = true ↔ t.Fits items u)) :
    (t.read? p v).isSome = true ↔ t.Fits p v := by
  rw [read?_array hs, fits_array_iff hs]
  cases hv : v.list? with
  | none => simp
  | some vs =>
    have hp : ∀ u ∈ vs, Value.Part u v := by
      cases v <;> cases hv
      exact fun u hu => .item hu
    simp only [Option.bind_some, Option.isSome_map, isSome_mapM, Option.some.injEq, exists_eq_left']
    exact forall₂_congr fun u hu => ih u (hp u hu)

theorem isSome_read?_object_iff {o : ObjectPlan} (hs : t.shape p = .object o)
    (ih : ∀ q, t.Part q p → ∀ u, Value.Part u v → ((t.read? q u).isSome = true ↔ t.Fits q u)) :
    (t.read? p v).isSome = true ↔ t.Fits p v := by
  rw [read?_object hs, fits_object_iff hs]
  cases hv : v.dict? with
  | none => simp
  | some d =>
    have hp : ∀ e ∈ d.entries, Value.Part e.2 v := by
      cases v <;> cases hv
      exact fun e he => .entry he
    have hslot : ∀ q ∈ o.properties, ∀ u, d.get? q.name = some u →
        ((t.read? q.plan u).isSome = true ↔ t.Fits q.plan u) := fun q hq u hu =>
      ih q.plan (part_property hs hq) u (hp _ (Dict.mem_of_get? hu))
    have hextra : ∀ a, o.additional = some a → ∀ e ∈ d.entries,
        ((t.read? a e.2).isSome = true ↔ t.Fits a e.2) := fun a ha e hm =>
      ih a (part_additional hs ha) e.2 (hp e hm)
    simp only [Option.bind_some, Option.isSome_map, isSome_readObject?_iff, isSome_readSlot?_iff,
      isSome_readExtras?_iff, Option.some.injEq, exists_eq_left']
    constructor
    · rintro ⟨hq, ha⟩
      exact ⟨fun q hm => (hq q hm).1,
        fun q hm u hu hi => (hslot q hm u hu).mp ((hq q hm).2 u hu hi),
        fun a haa e hm => (hextra a haa e hm).mp (ha a haa e hm)⟩
    · rintro ⟨required, given, entries⟩
      exact ⟨fun q hm => ⟨required q hm, fun u hu hi => (hslot q hm u hu).mpr (given q hm u hu hi)⟩,
        fun a haa e hm => (hextra a haa e hm).mpr (entries a haa e hm)⟩

theorem isSome_read?_choices_iff {c : ChoicesPlan} (hs : t.shape p = .choices c)
    (ih : ∀ w ∈ c.variants, ((t.read? w.plan v).isSome = true ↔ t.Fits w.plan v)) :
    (t.read? p v).isSome = true ↔ t.Fits p v := by
  rw [read?_choices hs, Option.isSome_map, fits_choices_iff hs, readChoice?]
  cases hp : t.pick v 0 c.variants with
  | none => simp
  | some r =>
    obtain ⟨i, w⟩ := r
    have hm := List.mem_of_getElem? (getElem?_of_pick hp)
    simp only [Option.bind_some, Option.isSome_map, Option.some.injEq, Prod.mk.injEq, ih w hm]
    constructor
    · exact fun h => ⟨i, w, ⟨rfl, rfl⟩, h⟩
    · rintro ⟨_, _, ⟨rfl, rfl⟩, h⟩
      exact h

/-- A value is read if and only if it `Fits`. -/
theorem isSome_read?_iff (he : t.SmallEnums p) : (t.read? p v).isSome = true ↔ t.Fits p v := by
  induction p, v using read_induction t with
  | step p v ihv ihw =>
    cases hs : t.shape p with
    | array items => exact isSome_read?_array_iff hs fun u hu => ihv u hu items (he.part (part_item hs))
    | object o => exact isSome_read?_object_iff hs fun q hq u hu => ihv u hu q (he.part hq)
    | choices c =>
      exact isSome_read?_choices_iff hs fun w hm => ihw c hs w hm (he.part (part_variant hs hm))
    | boolean | integer | int64 | double | string | binary | any | function | enumeration =>
      have hl : (t.shape p).isLeaf = true := by rw [hs]; rfl
      rw [read?_leaf hl, fits_leaf_iff hl]
      exact isSome_readLeaf?_iff fun e => he.length_lt

end Table

namespace Codec

/-- Reading by `convert` succeeds on exactly the values that fit, whatever key a value stands under
and however faults are reported. -/
theorem exists_convert_iff_fits {r : Registry} {settings : Settings} {name : String} {c : Codec}
    (h : generate r settings name = .ok c) (hr : r.SmallEnums) {p : Plan} (hp : c.Mentions p)
    (key : Option String) (convention : Convention) (v : Value) :
    (∃ x, (c.table.convert p key v).mapError (Fault.report convention) = .ok x) ↔ c.table.Fits p v := by
  rw [← Table.isSome_read?_iff (smallEnums_of_generate h hr hp), Option.isSome_iff_exists]
  refine exists_congr fun x => ?_
  rw [← toOption_eq_some_iff, toOption_mapError, Table.toOption_convert]

/-- An item with a price that is whole but comes as a double. -/
theorem exists_convert_iff_fits_shop :
    Shop.registry.SmallEnums ∧ ∃ c, generate Shop.registry {} "shop" = .ok c ∧ c.Mentions (.named 1) ∧
      ((∃ x, (c.table.convert (.named 1) (some "item")
          (.dict ⟨[("name", .string "pen"), ("price", .double (.ofInt 5))]⟩)).mapError
            (Fault.report .diagnostic) = .ok x) ↔
        c.table.Fits (.named 1) (.dict ⟨[("name", .string "pen"), ("price", .double (.ofInt 5))]⟩)) := by
  obtain ⟨c, hc⟩ := Shop.exists_codec
  have hp : c.Mentions (.named 1) := (Root.entry 1).mentions
  exact ⟨Shop.smallEnums, c, hc, hp, exists_convert_iff_fits hc Shop.smallEnums hp _ _ _⟩

end Codec

end Interchange
