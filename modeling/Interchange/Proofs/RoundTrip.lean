import Interchange.Proofs.FixedPoint
import Interchange.Proofs.Offering
import Interchange.Proofs.Population

/-! # Round trips

A value is read, the data is written, and what is written is read again. That leads back to the same
data with two exceptions. A whole double that a choice reads in 64 bits may be written as an
integer, which an earlier variant takes (`Narrows`). And where extra properties are typed, they are
written over the declared ones (`Agrees`). `Returns` says which values are spared by both, and
`sameReading_iff_returns` that these are the ones that come back.
-/

namespace Interchange

open Plan Populate Serialize

/-- Doubles that are `same` as numbers, or are both not a number. -/
def Double.Equal (a b : Double) : Prop := a.same b = true ∨ a.isNaN = true ∧ b.isNaN = true

theorem Double.Equal.refl (d : Double) : Double.Equal d d := by
  cases h : d.isNaN with
  | true => exact .inr ⟨h, h⟩
  | false => exact .inl (by simp [Double.same, h])

theorem Double.Equal.of_eq (a b : Double) (h : a = b) : Double.Equal a b := by
  subst h
  exact .refl a

namespace Table

/-- Whole doubles that are read in 64 bits and fit in 32, so that `int64Value` writes an integer. -/
inductive Narrows (t : Table) : Plan → Value → Prop
  | whole {p : Plan} {d : Double} {n : Int} (hs : t.shape p = .int64) (finite : d.isFinite = true)
      (value : d.value = n) (low : -0x80000000 ≤ n) (high : n ≤ 0x7fffffff) : Narrows t p (.double d)
  | choices {p : Plan} {c : ChoicesPlan} {u : VariantPlan} {before after : List VariantPlan}
      {v : Value} (hs : t.shape p = .choices c) (split : c.variants = before ++ u :: after)
      (first : ∀ b ∈ before, ¬t.Suits b.plan v.kind) (suits : t.Suits u.plan v.kind)
      (content : Narrows t u.plan v) : Narrows t p v

/-- Two values are read as data that is `Alike`. -/
def SameReading (t : Table) (p : Plan) (v w : Value) : Prop :=
  ∃ x y, t.read? p v = some x ∧ t.read? p w = some y ∧ Data.Alike Double.Equal y x

/-- A plan reads what another plan makes of a value (`Normal`) as it reads the value. -/
def Agrees (t : Table) (p a : Plan) (v : Value) : Prop := ∀ w, t.Normal a v w → t.SameReading p v w

/-- Values that return as the same data after they are read and written. A choice must not hand what
is narrowed (`Narrows`) to an earlier variant. Declared properties must agree with the plan of typed
extra properties (`Agrees`), which are written over them. -/
inductive Returns (t : Table) : Plan → Value → Prop
  | leaf {p : Plan} {v : Value} (hs : (t.shape p).isLeaf = true)
      (he : ∀ e, t.shape p = .enumeration e → e.Returns v) : Returns t p v
  | array {p items : Plan} {vs : List Value} (hs : t.shape p = .array items)
      (content : ∀ v ∈ vs, Returns t items v) : Returns t p (.list vs)
  | closed {p : Plan} {o : ObjectPlan} {d : Dict Value} (hs : t.shape p = .object o)
      (ha : o.additional = none)
      (given : ∀ q ∈ o.properties, ∀ v, d.get? q.name = some v → t.ignores q = false →
        Returns t q.plan v) : Returns t p (.dict d)
  | free {p a : Plan} {o : ObjectPlan} {v : Value} (hs : t.shape p = .object o)
      (ha : o.additional = some a) (hany : t.shape a = .any) : Returns t p v
  | typed {p a : Plan} {o : ObjectPlan} {d : Dict Value} (hs : t.shape p = .object o)
      (ha : o.additional = some a) (hany : t.shape a ≠ .any)
      (given : ∀ q ∈ o.properties, ∀ v, d.get? q.name = some v → t.ignores q = false →
        t.Agrees q.plan a v)
      (entries : ∀ k v, d.get? k = some v → Returns t a v) : Returns t p (.dict d)
  | choices {p : Plan} {c : ChoicesPlan} {u : VariantPlan} {before after : List VariantPlan}
      {v : Value} (hs : t.shape p = .choices c) (split : c.variants = before ++ u :: after)
      (first : ∀ b ∈ before, ¬t.Suits b.plan v.kind) (suits : t.Suits u.plan v.kind)
      (kept : t.Narrows u.plan v → ∀ b ∈ before, ¬t.Suits b.plan .int)
      (content : Returns t u.plan v) : Returns t p v

variable {t : Table} {p : Plan} {v w : Value}

/-! ## Narrowing -/

theorem int64Value_eq_int_iff {z : Int64} :
    (∃ m, int64Value z = .int m) ↔ -0x80000000 ≤ z.toInt ∧ z.toInt ≤ 0x7fffffff := by
  constructor
  · rintro ⟨m, hm⟩
    rcases int64Value_cases z with ⟨m', hz, -⟩ | h
    · have := m'.le_toInt
      have := m'.toInt_lt
      omega
    · rw [h] at hm
      cases hm
  · rintro ⟨low, high⟩
    have hz : (Int32.ofInt z.toInt).toInt = z.toInt := by
      refine Int32.toInt_ofInt_of_le ?_ ?_ <;> omega
    exact ⟨Int32.ofInt z.toInt, by rw [int64Value, if_pos hz.symm]⟩

theorem kind_int64Value_iff {d : Double} {z : Int64} (h : integral? d = some z) :
    (int64Value z).kind ≠ .double ↔ ∃ n : Int, d.isFinite = true ∧ d.value = n ∧
      -0x80000000 ≤ n ∧ n ≤ 0x7fffffff := by
  obtain ⟨n, hn, low, high, hz⟩ := exists_of_integral? h
  have hkind : (int64Value z).kind ≠ .double ↔ ∃ m, int64Value z = .int m := by
    rcases int64Value_cases z with ⟨m, -, h⟩ | h <;> simp [h, Value.kind]
  rw [hkind, int64Value_eq_int_iff]
  constructor
  · rintro ⟨hlow, hhigh⟩
    obtain ⟨finite, value⟩ := Double.toInt?_eq_some_iff.mp hn
    exact ⟨n, finite, value, by omega, by omega⟩
  · rintro ⟨m, finite, value, hlow, hhigh⟩
    have hm := Double.toInt?_eq_some_iff.mpr ⟨finite, value⟩
    rw [hn] at hm
    cases hm
    omega

/-- The variant that `pick` finds, from how the variants are split by it. -/
theorem pick_of_split {c : ChoicesPlan} {u : VariantPlan} {before after : List VariantPlan}
    (split : c.variants = before ++ u :: after) (first : ∀ b ∈ before, ¬t.Suits b.plan v.kind)
    (suits : t.Suits u.plan v.kind) : t.pick v 0 c.variants = some (before.length, u) := by
  refine pick_eq_some_iff.mpr ⟨before, after, split, by omega, fun b hb => ?_, admits_iff.mpr suits⟩
  exact admits_eq_false_iff.mpr (first b hb)

theorem narrows_choices_iff {c : ChoicesPlan} (hs : t.shape p = .choices c) {i : Nat}
    {u : VariantPlan} (hp : t.pick v 0 c.variants = some (i, u)) :
    t.Narrows p v ↔ t.Narrows u.plan v := by
  constructor
  · intro h
    cases h with
    | whole hs' =>
      rw [hs] at hs'
      cases hs'
    | choices hs' split first suits content =>
      rw [hs] at hs'
      cases hs'
      rw [pick_of_split split first suits] at hp
      cases hp
      exact content
  · intro h
    obtain ⟨before, after, split, -, first, ha⟩ := pick_eq_some_iff.mp hp
    exact .choices hs split (fun b hb => admits_eq_false_iff.mp (first b hb)) (admits_iff.mp ha) h

theorem not_narrows (hs : t.shape p ≠ .int64) (hc : ∀ c, t.shape p ≠ .choices c) : ¬t.Narrows p v := by
  intro h
  cases h with
  | whole hs' => exact hs hs'
  | choices hs' => exact hc _ hs'

theorem narrows_int64_iff (hs : t.shape p = .int64) {x : Data}
    (hr : (t.shape p).readLeaf? v = some x) (hw : (t.shape p).writeLeaf? x = some w) :
    t.Narrows p v ↔ w.kind ≠ v.kind := by
  rw [hs] at hr hw
  obtain ⟨z, hz, rfl⟩ := Option.map_eq_some_iff.mp hr
  cases hw
  cases v with
  | int n =>
    rw [int64Value_of_int hz]
    refine iff_of_false (fun h => ?_) fun h => h rfl
    cases h with
    | choices hs' =>
      rw [hs] at hs'
      cases hs'
  | double d =>
    refine Iff.trans ?_ (kind_int64Value_iff hz).symm
    constructor
    · intro h
      cases h with
      | whole _ finite value low high => exact ⟨_, finite, value, low, high⟩
      | choices hs' =>
        rw [hs] at hs'
        cases hs'
    · rintro ⟨n, finite, value, low, high⟩
      exact .whole hs finite value low high
  | null | bool | string | binary | list | dict => cases hz

/-- Where the kind of a value suits the plan, it changes exactly for those that the plan `Narrows`.
-/
theorem narrows_iff (hk : t.Suits p v.kind) (h : t.Normal p v w) : t.Narrows p v ↔ w.kind ≠ v.kind := by
  induction p, v using read_induction t generalizing w with
  | step p v ihv ihw =>
    cases normalAs_of_normal h with
    | leaf hs hr hw =>
      by_cases hint : t.shape p = .int64
      · exact narrows_int64_iff hint hr hw
      · have hc : ∀ c, t.shape p ≠ .choices c := by
          intro c hc
          rw [hc] at hs
          cases hs
        obtain ⟨-, hkind | ⟨hint', -⟩⟩ := kind_of_writeLeaf? ((suits_iff_of_isLeaf hs).mp hk) hr hw
        · exact iff_of_false (not_narrows hint hc) fun h => h hkind
        · exact absurd hint' hint
    | array hs | object hs =>
      refine iff_of_false (not_narrows ?_ ?_) fun h => h rfl <;> simp [hs]
    | choice hs hp hn =>
      have hm := List.mem_of_getElem? (getElem?_of_pick hp)
      rw [narrows_choices_iff hs hp]
      exact ihw _ hs _ hm (admits_iff.mp (admits_of_pick hp)) hn

/-! ## Choices -/

theorem returns_choices_iff {c : ChoicesPlan} (hs : t.shape p = .choices c) {i : Nat}
    {u : VariantPlan} (hp : t.pick v 0 c.variants = some (i, u)) :
    t.Returns p v ↔
      (t.Narrows u.plan v → ∀ j < i, ∀ b, c.variants[j]? = some b → ¬t.Suits b.plan .int) ∧
        t.Returns u.plan v := by
  constructor
  · intro h
    cases h with
    | leaf hs' =>
      rw [hs] at hs'
      cases hs'
    | array hs' | closed hs' | free hs' | typed hs' =>
      rw [hs] at hs'
      cases hs'
    | @choices _ _ _ before after _ hs' split first suits kept content =>
      rw [hs] at hs'
      cases hs'
      rw [pick_of_split split first suits] at hp
      cases hp
      rw [split]
      exact ⟨fun hn => forall_getElem?_append_iff.mpr (kept hn), content⟩
  · rintro ⟨kept, content⟩
    obtain ⟨before, after, split, rfl, first, ha⟩ := pick_eq_some_iff.mp hp
    rw [split, Nat.zero_add] at kept
    refine .choices hs split (fun b hb => admits_eq_false_iff.mp (first b hb)) (admits_iff.mp ha) ?_ content
    exact fun hn => forall_getElem?_append_iff.mp (kept hn)

/-- What is written picks the same variant again, unless it is narrowed and an earlier variant takes
integers. -/
theorem pick_normal_iff {c : ChoicesPlan} {i : Nat} {u : VariantPlan}
    (hp : t.pick v 0 c.variants = some (i, u)) (hn : t.Normal u.plan v w) :
    t.pick w 0 c.variants = some (i, u) ↔
      (t.Narrows u.plan v → ∀ j < i, ∀ b, c.variants[j]? = some b → ¬t.Suits b.plan .int) := by
  have hsuits := admits_iff.mp (admits_of_pick hp)
  rw [narrows_iff hsuits hn]
  obtain ⟨hw, hkind | ⟨hdouble, hint⟩⟩ := kind_of_normal hsuits hn
  · rw [pick_congr hkind]
    exact iff_of_true hp fun h => absurd hkind h
  · have hne : w.kind ≠ v.kind := by rw [hdouble, hint]; exact nofun
    constructor
    · intro hp' _ j hj b hb
      rw [← hint]
      exact admits_eq_false_iff.mp (admits_of_lt_pick hp' hj hb)
    · intro kept
      obtain ⟨before, after, split, rfl, -, -⟩ := pick_eq_some_iff.mp hp
      rw [split, Nat.zero_add] at kept
      refine pick_eq_some_iff.mpr ⟨before, after, split, rfl, fun b hb => ?_, admits_iff.mpr hw⟩
      rw [admits_eq_false_iff, hint]
      exact forall_getElem?_append_iff.mp (kept hne) b hb

/-- Two values are read alike by a choice if `pick` finds one variant for both, which reads them
alike. -/
theorem sameReading_choices_iff {c : ChoicesPlan} (hs : t.shape p = .choices c) {i : Nat}
    {u : VariantPlan} (hp : t.pick v 0 c.variants = some (i, u)) :
    t.SameReading p v w ↔ t.pick w 0 c.variants = some (i, u) ∧ t.SameReading u.plan v w := by
  have hi := getElem?_of_pick hp
  constructor
  · rintro ⟨x, y, hx, hy, halike⟩
    rw [read?_choices hs] at hx hy
    obtain ⟨cx, hcx, rfl⟩ := Option.map_eq_some_iff.mp hx
    obtain ⟨cy, hcy, rfl⟩ := Option.map_eq_some_iff.mp hy
    obtain ⟨i', u', x, hp', hrx, rfl⟩ := exists_of_readChoice? hcx
    obtain ⟨j, u'', y, hpw, hry, rfl⟩ := exists_of_readChoice? hcy
    rw [hp] at hp'
    cases hp'
    have hj := getElem?_of_pick hpw
    have hslot := (Data.alike_choice_iff.mp halike).2 j
    rw [get?_set_newChoice t hj, if_pos rfl, get?_set_newChoice t hi] at hslot
    by_cases hji : j = i
    · subst hji
      rw [hi] at hj
      cases hj
      rw [if_pos rfl] at hslot
      cases hslot with
      | some halike => exact ⟨hpw, x, y, hrx, hry, halike⟩
    · -- no other slot has content after the first reading
      have hengaged := Data.engaged_of_rel hslot
      rw [if_neg hji, engaged_newChoice, engaged_of_read? hry] at hengaged
      cases hengaged
  · rintro ⟨hpw, x, y, hx, hy, halike⟩
    refine ⟨_, _, ?_, ?_, alike_set_newChoice (t := t) hi halike⟩
    · rw [read?_choices hs, readChoice?, hp, Option.bind_some, hx, Option.map_some, Option.map_some]
    · rw [read?_choices hs, readChoice?, hpw, Option.bind_some, hy, Option.map_some, Option.map_some]

/-! ## Arrays -/

theorem sameReading_array_iff {items : Plan} (hs : t.shape p = .array items) {vs ws : List Value} :
    t.SameReading p (.list vs) (.list ws) ↔ List.Forall₂ (t.SameReading items) vs ws := by
  have hread : ∀ us x, t.read? p (.list us) = some x ↔
      ∃ xs, List.Forall₂ (fun u x => t.read? items u = some x) us xs ∧ .array xs = x := by
    intro us x
    rw [read?_array hs, Value.list?, Option.bind_some, Option.map_eq_some_iff]
    simp only [mapM_eq_some_iff]
  constructor
  · rintro ⟨x, y, hx, hy, halike⟩
    obtain ⟨xs, hxs, rfl⟩ := (hread vs x).mp hx
    obtain ⟨ys, hys, rfl⟩ := (hread ws y).mp hy
    have halike := (Data.alike_array_iff.mp halike).flip
    have hboth := forall₂_comp_iff.mpr ⟨xs, hxs, forall₂_comp_iff.mpr ⟨ys, halike, hys.flip⟩⟩
    refine hboth.imp ?_
    rintro v w ⟨x, hx, y, halike, hy⟩
    exact ⟨x, y, hx, hy, halike⟩
  · intro h
    have hboth : List.Forall₂ (fun v w => ∃ x, t.read? items v = some x ∧
        ∃ y, Data.Alike Double.Equal y x ∧ t.read? items w = some y) vs ws := by
      refine h.imp ?_
      rintro v w ⟨x, y, hx, hy, halike⟩
      exact ⟨x, hx, y, halike, hy⟩
    obtain ⟨xs, hxs, h⟩ := forall₂_comp_iff.mp hboth
    obtain ⟨ys, halike, hys⟩ := forall₂_comp_iff.mp h
    exact ⟨.array xs, .array ys, (hread vs _).mpr ⟨xs, hxs, rfl⟩, (hread ws _).mpr ⟨ys, hys.flip, rfl⟩,
      Data.alike_array_iff.mpr halike.flip⟩

/-! ## Objects -/

/-- Two dictionaries with the same declared keys are read alike if their properties are. -/
theorem sameReading_object_iff {o : ObjectPlan} {d e : Dict Value} {x : Object}
    (hs : t.shape p = .object o) (hn : (o.properties.map (·.name)).Nodup) (hx : t.readObject? o d = some x)
    (hkeys : ∀ q ∈ o.properties, (d.get? q.name).isSome = (e.get? q.name).isSome) :
    t.SameReading p (.dict d) (.dict e) ↔
      (∀ q ∈ o.properties, ∀ v w, d.get? q.name = some v → e.get? q.name = some w →
        t.ignores q = false → t.SameReading q.plan v w) ∧
      ∃ extras, t.readExtras? o e = some extras ∧ Data.AlikeExtras Double.Equal extras x.extras := by
  have hread : ∀ f z, t.read? p (.dict f) = some z ↔ ∃ y, t.readObject? o f = some y ∧ .object y = z := by
    intro f z
    rw [read?_object hs, Value.dict?, Option.bind_some, Option.map_eq_some_iff]
  refine Iff.trans ?_ (exists_readObject?_iff hn hx hkeys)
  constructor
  · rintro ⟨zx, zy, hzx, hzy, halike⟩
    obtain ⟨x', hx', rfl⟩ := (hread d zx).mp hzx
    obtain ⟨y, hy, rfl⟩ := (hread e zy).mp hzy
    rw [hx] at hx'
    cases hx'
    exact ⟨y, hy, halike⟩
  · rintro ⟨y, hy, halike⟩
    exact ⟨.object x, .object y, (hread d _).mpr ⟨x, hx, rfl⟩, (hread e _).mpr ⟨y, hy, rfl⟩, halike⟩

/-! ## Values that return -/

theorem returns_leaf_iff (hs : (t.shape p).isLeaf = true) :
    t.Returns p v ↔ ∀ e, t.shape p = .enumeration e → e.Returns v := by
  constructor
  · intro h
    cases h with
    | leaf _ he => exact he
    | array hs' | closed hs' | free hs' | typed hs' | choices hs' =>
      rw [hs'] at hs
      cases hs
  · exact .leaf hs

theorem returns_array_iff {items : Plan} (hs : t.shape p = .array items) {vs : List Value} :
    t.Returns p (.list vs) ↔ ∀ v ∈ vs, t.Returns items v := by
  constructor
  · intro h
    cases h with
    | leaf hs' =>
      rw [hs] at hs'
      cases hs'
    | array hs' content =>
      rw [hs] at hs'
      cases hs'
      exact content
    | free hs' | choices hs' =>
      rw [hs] at hs'
      cases hs'
  · exact .array hs

theorem returns_closed_iff {o : ObjectPlan} (hs : t.shape p = .object o) (ha : o.additional = none)
    {d : Dict Value} :
    t.Returns p (.dict d) ↔ ∀ q ∈ o.properties, ∀ v, d.get? q.name = some v → t.ignores q = false →
      t.Returns q.plan v := by
  constructor
  · intro h
    cases h with
    | leaf hs' =>
      rw [hs] at hs'
      cases hs'
    | closed hs' _ given =>
      rw [hs] at hs'
      cases hs'
      exact given
    | free hs' ha' | typed hs' ha' =>
      rw [hs] at hs'
      cases hs'
      rw [ha] at ha'
      cases ha'
    | choices hs' =>
      rw [hs] at hs'
      cases hs'
  · exact .closed hs ha

theorem returns_typed_iff {o : ObjectPlan} (hs : t.shape p = .object o) {a : Plan}
    (ha : o.additional = some a) (hany : t.shape a ≠ .any) {d : Dict Value} :
    t.Returns p (.dict d) ↔
      (∀ q ∈ o.properties, ∀ v, d.get? q.name = some v → t.ignores q = false →
        t.Agrees q.plan a v) ∧
      ∀ k v, d.get? k = some v → t.Returns a v := by
  constructor
  · intro h
    cases h with
    | leaf hs' =>
      rw [hs] at hs'
      cases hs'
    | closed hs' ha' =>
      rw [hs] at hs'
      cases hs'
      rw [ha] at ha'
      cases ha'
    | free hs' ha' hany' =>
      rw [hs] at hs'
      cases hs'
      rw [ha] at ha'
      cases ha'
      exact absurd hany' hany
    | typed hs' ha' _ given entries =>
      rw [hs] at hs'
      cases hs'
      rw [ha] at ha'
      cases ha'
      exact ⟨given, entries⟩
    | choices hs' =>
      rw [hs] at hs'
      cases hs'
  · rintro ⟨given, entries⟩
    exact .typed hs ha hany given entries

/-- A shape without parts reads what it writes as the same data. Members of an enumeration too large
for the codes are the exception. -/
theorem sameReading_leaf_iff (hs : (t.shape p).isLeaf = true) {x : Data}
    (hr : (t.shape p).readLeaf? v = some x) (hw : (t.shape p).writeLeaf? x = some w) :
    t.SameReading p v w ↔ ∀ e, t.shape p = .enumeration e → e.Returns v := by
  constructor
  · rintro ⟨x', y, hx, hy, halike⟩ e he m hm
    rw [read?_leaf hs, he, ShapeOf.readLeaf?, hm, Option.map_some] at hx
    rw [he, ShapeOf.readLeaf?, hm, Option.map_some] at hr
    cases hx
    cases hr
    rw [he] at hw
    cases hw
    rw [read?_leaf hs, he] at hy
    obtain ⟨m', hm', rfl⟩ := Option.map_eq_some_iff.mp hy
    have heq : m' = m := halike.head
    rw [heq] at hm'
    exact hm'
  · intro he
    have hr' := readLeaf?_of_writeLeaf? he hr hw
    exact ⟨x, x, by rw [read?_leaf hs, hr], by rw [read?_leaf hs, hr'], .refl Double.Equal.refl x⟩

section Object

variable {o : ObjectPlan} {d e f : Dict Value} {x : Object}

theorem SlotNormal.isSome_eq {q : PropertyPlan} {u u' : Option Value} (h : t.SlotNormal q u u') :
    u.isSome = u'.isSome := by
  cases h <;> rfl

theorem sameReading_closed_iff (hs : t.shape p = .object o) (hn : (o.properties.map (·.name)).Nodup)
    (ha : o.additional = none) (hx : t.readObject? o d = some x) (hf : t.Declared o d f)
    (ih : ∀ q ∈ o.properties, ∀ v w, d.get? q.name = some v → t.Normal q.plan v w →
      (t.SameReading q.plan v w ↔ t.Returns q.plan v)) :
    t.SameReading p (.dict d) (.dict f) ↔ t.Returns p (.dict d) := by
  have hclosed : ∀ d, t.readExtras? o d = some .closed := by
    intro d
    simp only [readExtras?, ha]
  have hextras := (readExtras?_of_readObject? hx).symm.trans (hclosed d)
  rw [sameReading_object_iff hs hn hx fun q hq => (hf.slots q hq).isSome_eq, returns_closed_iff hs ha]
  constructor
  · rintro ⟨slots, -⟩ q hq v hv hi
    have hslot := hf.slots q hq
    rw [hv] at hslot
    generalize hw : f.get? q.name = u at hslot
    cases hslot with
    | ignored hi' =>
      rw [hi] at hi'
      cases hi'
    | @given _ w _ hnormal => exact (ih q hq v w hv hnormal).mp (slots q hq v w hv hw hi)
  · intro given
    refine ⟨fun q hq v w hv hw hi => ?_, .closed, hclosed f, ?_⟩
    · have hslot := hf.slots q hq
      rw [hv, hw] at hslot
      cases hslot with
      | ignored hi' =>
        rw [hi] at hi'
        cases hi'
      | given _ hnormal => exact (ih q hq v w hv hnormal).mpr (given q hq v hv hi)
    · rw [Option.some.inj hextras]
      exact .closed

theorem sameReading_free (hs : t.shape p = .object o) (hu : t.UniqueNames p) {a : Plan}
    (ha : o.additional = some a) (hany : t.shape a = .any) (hv : v.Regular) (h : t.Normal p v w) :
    t.SameReading p v w := by
  have halike := alike_of_free hs hu ha hany hv h
  have hw := regular_of_normal hu hv h
  obtain ⟨x, hx, -⟩ := h
  obtain ⟨y, hy, hyx⟩ := respects .eq hu v x w hx halike hv hw
  exact ⟨x, y, hx, hy, hyx.mono Double.Equal.of_eq⟩

theorem sameReading_typed_iff (hs : t.shape p = .object o) (hn : (o.properties.map (·.name)).Nodup)
    {a : Plan} (ha : o.additional = some a) (hany : t.shape a ≠ .any) (hd : d.Distinct)
    (he : e.Distinct) (hx : t.readObject? o d = some x)
    (entries : ∀ k, Option.Rel (t.Normal a) (d.get? k) (e.get? k))
    (ih : ∀ k v w, d.get? k = some v → t.Normal a v w → (t.SameReading a v w ↔ t.Returns a v)) :
    t.SameReading p (.dict d) (.dict e) ↔ t.Returns p (.dict d) := by
  have hkeys : ∀ k, (d.get? k).isSome = (e.get? k).isSome := fun k => (optionRel_iff.mp (entries k)).1
  have hnormal : ∀ k v w, d.get? k = some v → e.get? k = some w → t.Normal a v w :=
    fun k v w => (optionRel_iff.mp (entries k)).2 v w
  have hexists : ∀ k v, d.get? k = some v → ∃ w, e.get? k = some w ∧ t.Normal a v w := by
    intro k v hv
    have hk := entries k
    rw [hv] at hk
    exact exists_of_rel_some hk
  rw [sameReading_object_iff hs hn hx fun q _ => hkeys q.name,
    exists_readExtras?_iff ha hany hd he (readExtras?_of_readObject? hx) hkeys,
    returns_typed_iff hs ha hany]
  refine and_congr ?_ ?_
  · -- a value has one normal form, so to agree on it is to agree
    refine forall₂_congr fun q hq => ?_
    constructor
    · intro h v hv hi w hw
      obtain ⟨w', hw', hn'⟩ := hexists q.name v hv
      rw [hw.unique hn']
      exact h v w' hv hw' hi
    · intro h v w hv hw hi
      exact h v hv hi w (hnormal q.name v w hv hw)
  · constructor
    · intro h k v hv
      obtain ⟨w, hw, hn'⟩ := hexists k v hv
      exact (ih k v w hv hn').mp (h k v w hv hw)
    · intro h k v w hv hw
      exact (ih k v w hv (hnormal k v w hv hw)).mpr (h k v hv)

end Object

/-- What a value becomes (`Normal`) is read as the value is, if and only if the value `Returns`. -/
theorem sameReading_iff_returns (hu : t.UniqueNames p) (hv : v.Regular) (h : t.Normal p v w) :
    t.SameReading p v w ↔ t.Returns p v := by
  induction p, v using read_induction t generalizing w with
  | step p v ihv ihw =>
    have ih : ∀ q, t.Part q p → ∀ u, Value.Part u v → ∀ w, t.Normal q u w →
        (t.SameReading q u w ↔ t.Returns q u) :=
      fun q hq u hm w hn => ihv u hm q (hu.part hq) (hv.part hm) hn
    cases normalAs_of_normal h with
    | leaf hs hr hw => rw [sameReading_leaf_iff hs hr hw, returns_leaf_iff hs]
    | @array items vs ws hs hn =>
      rw [sameReading_array_iff hs, returns_array_iff hs]
      exact forall₂_iff_forall hn fun u hm w hn => ih items (part_item hs) u (.item hm) w hn
    | @object o d e x hs hr hw =>
      cases objectNormal_of_readObject? (hu.nodup hs) hv.distinct hr hw with
      | closed ha hf =>
        refine sameReading_closed_iff hs (hu.nodup hs) ha hr hf fun q hq u w hk hn => ?_
        exact ih q.plan (part_property hs hq) u (.of_get? hk) w hn
      | free ha hany => exact iff_of_true (sameReading_free hs hu ha hany hv h) (.free hs ha hany)
      | typed ha hany distinct entries =>
        refine sameReading_typed_iff hs (hu.nodup hs) ha hany hv.distinct distinct hr entries ?_
        intro k u w hk hn
        exact ih _ (part_additional hs ha) u (.of_get? hk) w hn
    | choice hs hp hn =>
      have hm := List.mem_of_getElem? (getElem?_of_pick hp)
      rw [sameReading_choices_iff hs hp, returns_choices_iff hs hp, pick_normal_iff hp hn,
        ihw _ hs _ hm (hu.part (part_variant hs hm)) hv hn]

/-- What has been read is written, and comes back if and only if the value `Returns`. -/
theorem exists_write?_iff_returns (hu : t.UniqueNames p) (hv : v.Regular) {x : Data}
    (hx : t.read? p v = some x) :
    ∃ w, t.write? p x = some w ∧
      ((∃ y, t.read? p w = some y ∧ Data.Alike Double.Equal y x) ↔ t.Returns p v) := by
  obtain ⟨w, hw, hn⟩ := exists_normal hu hx
  refine ⟨w, hw, Iff.trans ?_ (sameReading_iff_returns hu hv hn)⟩
  constructor
  · rintro ⟨y, hy, halike⟩
    exact ⟨x, y, hx, hy, halike⟩
  · rintro ⟨x', y, hx', hy, halike⟩
    rw [hx] at hx'
    cases hx'
    exact ⟨y, hy, halike⟩

end Table

/-! ## Types of a codec -/

/-- What a type reads it can write, and what it writes it reads as data that is alike if and only if
`Table.Returns` holds of the value. -/
theorem EntryType.Presents.roundTrips {t : EntryType} {α : Type} {wrap : α → Data}
    {read : Value → Except CodecError α} {write : α → Except CodecError Value}
    (h : t.Presents wrap read write) (hu : t.codec.table.UniqueNames t.plan)
    (hw : t.require .toValue = .ok ()) (v : Value) (x : α) (hv : v.Regular) (hx : read v = .ok x) :
    ∃ w, write x = .ok w ∧
      ((∃ y, read w = .ok y ∧ Data.Alike Double.Equal (wrap y) (wrap x)) ↔
        t.codec.table.Returns t.plan v) := by
  obtain ⟨hr, hx⟩ := h.read_eq_ok_iff.mp hx
  obtain ⟨w, hwrite, hiff⟩ := Table.exists_write?_iff_returns hu hv hx
  refine ⟨w, h.write_eq_ok_iff.mpr ⟨hw, hwrite⟩, Iff.trans ?_ hiff⟩
  constructor
  · rintro ⟨y, hy, halike⟩
    exact ⟨wrap y, (h.read_eq_ok_iff.mp hy).2, halike⟩
  · rintro ⟨y, hy, halike⟩
    obtain ⟨y, hread, rfl⟩ := h.ofValue_eq_ok (ofValue_eq_ok_iff.mpr ⟨hr, hy⟩)
    exact ⟨y, hread, halike⟩

/-- Whatever is read can be written, and what is written is read as data that is alike if and only
if the value returns (`Table.Returns`). -/
def ObjectType.RoundTrips (t : ObjectType) : Prop :=
  ∀ v x, v.Regular → t.ofValue v = .ok x → ∃ w, t.toValue x = .ok w ∧
    ((∃ y, t.ofValue w = .ok y ∧ Data.Alike Double.Equal (.object y) (.object x)) ↔
      t.table.Returns (.named t.id) v)

@[inherit_doc ObjectType.RoundTrips]
def ChoicesType.RoundTrips (t : ChoicesType) : Prop :=
  ∀ v x, v.Regular → t.ofValue v = .ok x → ∃ w, t.toValue x = .ok w ∧
    ((∃ y, t.ofValue w = .ok y ∧ Data.Alike Double.Equal (.choice y) (.choice x)) ↔
      t.table.Returns (.named t.id) v)

namespace Codec

variable {c : Codec}

theorem require_eq_ok {id : Nat} {op : Operation} (h : (c.operationsAt id).has op = true) (name : String) :
    c.require id name op = .ok () := by
  rw [require, if_pos h]

/-- A type that is read from values and written to them, so that it offers both `ofValue` and
`toValue`. -/
def Symmetric (c : Codec) (id : Nat) : Prop :=
  (c.operationsAt id).has .fromValue = true ∧ (c.operationsAt id).has .toValue = true

/-- Round trips of the types of a codec, for objects and for choices (`ObjectType.RoundTrips`,
`ChoicesType.RoundTrips`). -/
theorem roundTrips_of_generate {r : Registry} {settings : Settings} {name : String}
    (h : generate r settings name = .ok c) (hr : r.UniqueProperties) :
    (∀ type t, c.object type = .ok t → c.Symmetric t.id → t.RoundTrips) ∧
      ∀ type t, c.choices type = .ok t → c.Symmetric t.id → t.RoundTrips := by
  constructor
  · intro type t ht hops
    obtain ⟨rfl, hs⟩ := shape_of_object ht
    have hu := uniqueNames_of_type h hr (mentionsType_entry t.codec t.id)
    exact (ObjectType.presents hs).roundTrips hu (require_eq_ok hops.2 t.name)
  · intro type t ht hops
    obtain ⟨rfl, hs⟩ := shape_of_choices ht
    have hu := uniqueNames_of_type h hr (mentionsType_entry t.codec t.id)
    exact (ChoicesType.presents hs).roundTrips hu (require_eq_ok hops.2 t.name)

end Codec

namespace Shop

variable {c : Codec} {t : Table} {p : Plan} {name label label' : String}

theorem nodup_registrationKeys : registry.registrationKeys.Nodup := by decide

/-- Prices are read from values and written to them. -/
theorem exists_price (h : Codec.generate registry {} "shop" = .ok c) :
    ∃ t, c.choices "Price" = .ok t ∧ t.codec = c ∧ c.Symmetric t.id ∧
      t.plan = ⟨"Price", priceVariants "integer" "int64"⟩ := by
  have hc : Codec.Compiled registry shop c := Codec.compiled_of_generate h rfl nodup_registrationKeys
  have he : ("Price", price) ∈ shop.types.entries := List.mem_of_getElem? (i := 2) rfl
  obtain ⟨t, ht, rfl, hops, hplan⟩ := hc.exists_choicesType rfl he
  refine ⟨t, ht, rfl, ?_, ShapeOf.choices.inj (Plan.inline.inj hplan)⟩
  rw [Codec.Symmetric, show t.codec.operationsAt t.id = .ofOrigin .jsonAndClient from hops]
  exact ⟨rfl, rfl⟩

section Price

variable (hs : t.shape p = .choices ⟨name, priceVariants label label'⟩)

include hs

theorem exists_read_int : ∃ y, t.read? p (.int 5) = some (.choice y) := by
  have hinteger : t.shape (.inline .integer) = .integer := by rw [Table.shape]
  have hread : t.read? (.inline .integer) (.int 5) = some (.integer 5) := by
    rw [Table.read?_leaf (by rw [hinteger]; rfl), hinteger]
    rfl
  rw [Table.read?_choices hs, Table.readChoice?, pick_int, Option.bind_some, hread]
  exact ⟨_, rfl⟩

/-- An integer is a price of 32 bits, and stays one. -/
theorem returns_int : t.Returns p (.int 5) := by
  have hinteger : t.shape (.inline .integer) = .integer := by rw [Table.shape]
  refine (Table.returns_choices_iff hs (pick_int label label' 5)).mpr ⟨?_, ?_⟩
  · intro _ j hj
    exact absurd hj (Nat.not_lt_zero j)
  · exact .leaf (by rw [hinteger]; rfl) (by simp [hinteger])

end Price

/-- A whole double is read as a price of 64 bits, and what is written for it as one of 32 bits. -/
theorem not_alike_price : ∃ c t x y, Codec.generate registry {} "shop" = .ok c ∧
    c.choices "Price" = .ok t ∧ c.Symmetric t.id ∧ t.ofValue (.double (.ofInt 5)) = .ok x ∧
    t.toValue x = .ok (.int 5) ∧ t.ofValue (.int 5) = .ok y ∧
    ¬Data.Alike Double.Equal (.choice y) (.choice x) := by
  obtain ⟨c, hc⟩ := exists_codec
  obtain ⟨t, ht, rfl, hops, hplan⟩ := exists_price hc
  obtain ⟨-, hs⟩ := Codec.shape_of_choices ht
  have hshape : t.table.shape (.named t.id) = .choices ⟨"Price", priceVariants "integer" "int64"⟩ := by
    rw [← hplan]
    exact hs
  obtain ⟨x, hx, hw⟩ := normal_price hshape
  obtain ⟨y, hy⟩ := exists_read_int hshape
  have hread := Codec.require_eq_ok hops.1 t.name
  have hwrite := Codec.require_eq_ok hops.2 t.name
  rw [Table.read?_choices hshape] at hx
  obtain ⟨x, hx', rfl⟩ := Option.map_eq_some_iff.mp hx
  rw [← Table.read?_choices hshape] at hx
  have hpresents := ChoicesType.presents hs
  refine ⟨t.codec, t, x, y, hc, ht, hops, hpresents.read_eq_ok_iff.mpr ⟨hread, hx⟩,
    hpresents.write_eq_ok_iff.mpr ⟨hwrite, hw⟩, hpresents.read_eq_ok_iff.mpr ⟨hread, hy⟩,
    fun halike => ?_⟩
  have hsame : t.table.SameReading (.named t.id) (.double (.ofInt 5)) (.int 5) :=
    ⟨_, _, hx, hy, halike⟩
  have hpick := ((Table.sameReading_choices_iff hshape (pick_double _ _ _)).mp hsame).1
  rw [pick_int] at hpick
  cases hpick

end Shop

theorem Codec.roundTrips_of_generate_price : Shop.registry.UniqueProperties ∧
    ∃ c t x, generate Shop.registry {} "shop" = .ok c ∧ c.choices "Price" = .ok t ∧ c.Symmetric t.id ∧
      Value.Regular (.int 5) ∧ t.ofValue (.int 5) = .ok x ∧ t.table.Returns (.named t.id) (.int 5) ∧
      ∃ w, t.toValue x = .ok w ∧
        ((∃ y, t.ofValue w = .ok y ∧ Data.Alike Double.Equal (.choice y) (.choice x)) ↔
          t.table.Returns (.named t.id) (.int 5)) := by
  obtain ⟨c, hc⟩ := Shop.exists_codec
  obtain ⟨t, ht, rfl, hops, hplan⟩ := Shop.exists_price hc
  obtain ⟨-, hs⟩ := shape_of_choices ht
  have hshape : t.table.shape (.named t.id) =
      .choices ⟨"Price", Shop.priceVariants "integer" "int64"⟩ := by
    rw [← hplan]
    exact hs
  obtain ⟨x, hx⟩ := Shop.exists_read_int hshape
  have hreturns := Shop.returns_int hshape
  have hv : Value.Regular (.int 5) := Value.regular_atom rfl rfl
  have hread : t.ofValue (.int 5) = .ok x :=
    (ChoicesType.presents hs).read_eq_ok_iff.mpr ⟨require_eq_ok hops.1 t.name, hx⟩
  exact ⟨Shop.uniqueNames.properties, t.codec, t, x, hc, ht, hops, hv, hread, hreturns,
    (roundTrips_of_generate hc Shop.uniqueNames.properties).2 "Price" t ht hops (.int 5) x hv hread⟩

end Interchange
