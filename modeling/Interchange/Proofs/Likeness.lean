import Interchange.Proofs.Conformance
import Interchange.Proofs.Grammar
import Interchange.Proofs.Merge

/-! # Data that is alike

It has the same content at every place, where dictionaries are compared as maps (`Data.Alike`).
Values that are alike are read as data that is alike (`respects`), whether doubles are compared by
their bits or as numbers (`Double.Comparison`).
-/

namespace Interchange

open Plan Populate

variable {R S : Double → Double → Prop}

/-- A way to compare doubles that reading respects. It need not relate every double to itself, but
it does so with those that come from integers. -/
structure Double.Comparison (R : Double → Double → Prop) : Prop where
  symm {a b : Double} : R a b → R b a
  ofInt (n : Int) : R (.ofInt n) (.ofInt n)
  toInt?_eq {a b : Double} : R a b → a.toInt? = b.toInt?

theorem Double.Comparison.eq : Double.Comparison Eq where
  symm := Eq.symm
  ofInt _ := rfl
  toInt?_eq := congrArg _

/-! ## Values -/

namespace Value

variable {v w : Value}

theorem SameHead.mono (h : SameHead R v w) (hRS : ∀ a b, R a b → S a b) : SameHead S v w := by
  cases v <;> cases w <;> first | exact hRS _ _ h | exact h

theorem Alike.mono (h : Alike R v w) (hRS : ∀ a b, R a b → S a b) : Alike S v w := by
  induction h with
  | intro head places _ ih => exact .intro (head.mono hRS) places ih

/-- Values without parts are `Alike` only if they are the same, doubles aside. -/
theorem Alike.eq_of_atom (h : Alike R w v) (hl : v.list? = none) (hd : v.dict? = none)
    (hv : v.kind ≠ .double) : w = v := by
  have hh := h.head
  cases v with
  | list => cases hl
  | dict => cases hd
  | double => exact absurd rfl hv
  | null | bool | int | string | binary =>
    cases w <;> first | exact congrArg _ hh | exact hh.elim | rfl

theorem alike_empty : Alike R (.dict ∅) (.dict ∅) := by
  refine alike_dict_iff.mpr fun k => ?_
  rw [Dict.get?_empty]
  exact .none

theorem Alike.eq_empty (h : Alike R w (.dict ∅)) : w = .dict ∅ := by
  cases w with
  | dict d =>
    obtain ⟨es⟩ := d
    cases es with
    | nil => rfl
    | cons e es =>
      have hk := (optionRel_iff.mp (alike_dict_iff.mp h e.1)).1
      simp [Dict.get?, EmptyCollection.emptyCollection] at hk
  | null | bool | int | double | string | binary | list => exact h.head.elim

end Value

/-! ## Data -/

namespace Data

/-- A way from data to one of its parts. -/
inductive Step
  | item (i : Nat)
  | field (name : String)
  | extra (key : String)
  | slot (i : Nat)

/-- The part that a step leads to, one of those that `Part` allows. -/
def child : Data → Step → Option Data
  | .array xs, .item i => xs[i]?
  | .object o, .field k => o.get? k
  | .object ⟨_, .typed d⟩, .extra k => d.get? k
  | .choice c, .slot i => c.get? i
  | _, _ => none

/-- Extra properties of the same form. Typed ones are parts of the data, and left aside. -/
def SameForm (R : Double → Double → Prop) : Extras → Extras → Prop
  | .closed, .closed => True
  | .any d, .any e => Value.Alike R (.dict d) (.dict e)
  | .typed _, .typed _ => True
  | _, _ => False

/-- Data of one kind with the same content, parts left aside (see `child`) and doubles compared by
`R`. -/
def SameHead (R : Double → Double → Prop) : Data → Data → Prop
  | .boolean a, .boolean b => a = b
  | .integer a, .integer b => a = b
  | .int64 a, .int64 b => a = b
  | .double a, .double b => R a b
  | .string a, .string b => a = b
  | .binary a, .binary b => a = b
  | .enumeration a, .enumeration b => a = b
  | .any v, .any w => Value.Alike R v w
  | .function v, .function w => Value.Alike R v w
  | .array _, .array _ => True
  | .object a, .object b => (∀ k, a.fields.contains k = b.fields.contains k) ∧ SameForm R a.extras b.extras
  | .choice a, .choice b => a.slots.length = b.slots.length
  | _, _ => False

/-- Data with the same content at every place: dictionaries are compared as maps, and doubles by
`R`. The same for data as `Value.Alike` for values. -/
inductive Alike (R : Double → Double → Prop) : Data → Data → Prop
  | intro {x y : Data} (head : SameHead R x y)
      (places : ∀ s, (x.child s).isSome = (y.child s).isSome)
      (parts : ∀ s a b, x.child s = some a → y.child s = some b → Alike R a b) : Alike R x y

variable {x y : Data}

theorem Alike.head : Alike R x y → SameHead R x y
  | .intro h _ _ => h

theorem part_of_child {a : Data} {s : Step} (h : x.child s = some a) : Part a x := by
  cases x with
  | array xs =>
    cases s with
    | item i => exact .item (List.mem_of_getElem? h)
    | field | extra | slot => cases h
  | object o =>
    cases s with
    | field k => exact .field h
    | extra k =>
      obtain ⟨fields, extras⟩ := o
      cases extras with
      | typed d => exact .extra rfl (Dict.mem_of_get? h)
      | closed | any => cases h
    | item | slot => cases h
  | choice c =>
    cases s with
    | slot i => exact .slot h
    | item | field | extra => cases h
  | boolean | integer | int64 | double | string | binary | enumeration | any | function => cases h

theorem SameForm.refl (hR : ∀ d, R d d) (extras : Extras) : SameForm R extras extras := by
  cases extras with
  | any d => exact Value.Alike.refl hR _
  | closed | typed => trivial

theorem SameHead.refl (hR : ∀ d, R d d) (x : Data) : SameHead R x x := by
  cases x with
  | double d => exact hR d
  | any v | function v => exact Value.Alike.refl hR v
  | object o => exact ⟨fun _ => rfl, .refl hR o.extras⟩
  | array => trivial
  | boolean | integer | int64 | string | binary | enumeration | choice => rfl

theorem Alike.refl (hR : ∀ d, R d d) (x : Data) : Alike R x x := by
  refine .intro (.refl hR x) (fun _ => rfl) fun s a b ha hb => ?_
  rw [ha] at hb
  cases hb
  exact Alike.refl hR a
termination_by sizeOf x
decreasing_by exact (part_of_child ha).sizeOf_lt

theorem SameForm.mono {a b : Extras} (h : SameForm R a b) (hRS : ∀ a b, R a b → S a b) :
    SameForm S a b := by
  cases a <;> cases b <;> first | exact Value.Alike.mono h hRS | exact h

theorem SameHead.mono (h : SameHead R x y) (hRS : ∀ a b, R a b → S a b) : SameHead S x y := by
  cases x <;> cases y <;>
    first | exact hRS _ _ h | exact Value.Alike.mono h hRS | exact ⟨h.1, h.2.mono hRS⟩ | exact h

theorem Alike.mono (h : Alike R x y) (hRS : ∀ a b, R a b → S a b) : Alike S x y := by
  induction h with
  | intro head places _ ih => exact .intro (head.mono hRS) places ih

/-- Data without parts is alike if its content is the same (`SameHead`). -/
theorem alike_of_head (hx : ∀ s, x.child s = none) (hy : ∀ s, y.child s = none)
    (h : SameHead R x y) : Alike R x y := by
  refine .intro h (fun s => by rw [hx, hy]) fun s a b ha => ?_
  rw [hx] at ha
  cases ha

/-- Slots that are alike are both `engaged`, or neither is. -/
theorem engaged_of_rel {a b : Option Data} (h : Option.Rel (Alike R) a b) : engaged a = engaged b := by
  cases h with
  | none => rfl
  | @some x y h =>
    have hh := h.head
    cases x <;> cases y <;> first | rfl | exact hh.elim | exact congrArg (fun e => !e.isNone) hh

theorem alike_any_iff {v w : Value} : Alike R (.any v) (.any w) ↔ Value.Alike R v w :=
  ⟨fun h => h.head, fun h => alike_of_head (fun _ => rfl) (fun _ => rfl) h⟩

theorem alike_function_empty : Alike R (.function (.dict ∅)) (.function (.dict ∅)) :=
  alike_of_head (fun _ => rfl) (fun _ => rfl) Value.alike_empty

theorem alike_array_iff {xs ys : List Data} :
    Alike R (.array xs) (.array ys) ↔ List.Forall₂ (Alike R) xs ys := by
  rw [forall₂_iff_getElem?]
  constructor
  · rintro ⟨-, places, parts⟩ i
    exact optionRel_iff.mpr ⟨places (.item i), parts (.item i)⟩
  · intro h
    refine .intro trivial ?_ ?_
    · rintro (i | k | k | i)
      · exact (optionRel_iff.mp (h i)).1
      all_goals rfl
    · rintro (i | k | k | i) a b ha hb
      · exact (optionRel_iff.mp (h i)).2 a b ha hb
      all_goals cases ha

/-- Extra properties that are alike; `SameForm` leaves typed ones aside, which are compared here. -/
inductive AlikeExtras (R : Double → Double → Prop) : Extras → Extras → Prop
  | closed : AlikeExtras R .closed .closed
  | any {d e : Dict Value} (h : Value.Alike R (.dict d) (.dict e)) : AlikeExtras R (.any d) (.any e)
  | typed {d e : Dict Data} (h : ∀ k, Option.Rel (Alike R) (d.get? k) (e.get? k)) :
      AlikeExtras R (.typed d) (.typed e)

theorem alike_object_iff {a b : Object} :
    Alike R (.object a) (.object b) ↔ (∀ k, a.fields.contains k = b.fields.contains k) ∧
      (∀ k, Option.Rel (Alike R) (a.get? k) (b.get? k)) ∧ AlikeExtras R a.extras b.extras := by
  obtain ⟨fa, ea⟩ := a
  obtain ⟨fb, eb⟩ := b
  constructor
  · rintro ⟨⟨keys, form⟩, places, parts⟩
    refine ⟨keys, fun k => optionRel_iff.mpr ⟨places (.field k), parts (.field k)⟩, ?_⟩
    cases ea <;> cases eb <;> try exact form.elim
    · exact .closed
    · exact .any form
    · exact .typed fun k => optionRel_iff.mpr ⟨places (.extra k), parts (.extra k)⟩
  · rintro ⟨keys, fields, extras⟩
    refine .intro ⟨keys, ?_⟩ ?_ ?_
    · cases extras with
      | any h => exact h
      | closed | typed => trivial
    · rintro (i | k | k | i)
      · rfl
      · exact (optionRel_iff.mp (fields k)).1
      · cases extras with
        | typed h => exact (optionRel_iff.mp (h k)).1
        | closed | any => rfl
      · rfl
    · rintro (i | k | k | i) x y hx hy
      · cases hx
      · exact (optionRel_iff.mp (fields k)).2 x y hx hy
      · cases extras with
        | typed h => exact (optionRel_iff.mp (h k)).2 x y hx hy
        | closed | any => cases hx
      · cases hx

theorem alike_choice_iff {a b : Choice} :
    Alike R (.choice a) (.choice b) ↔
      a.slots.length = b.slots.length ∧ ∀ i, Option.Rel (Alike R) (a.get? i) (b.get? i) := by
  constructor
  · rintro ⟨length, places, parts⟩
    exact ⟨length, fun i => optionRel_iff.mpr ⟨places (.slot i), parts (.slot i)⟩⟩
  · rintro ⟨length, h⟩
    refine .intro length ?_ ?_
    · rintro (i | k | k | i)
      iterate 3 rfl
      exact (optionRel_iff.mp (h i)).1
    · rintro (i | k | k | i) x y hx hy
      iterate 3 cases hx
      exact (optionRel_iff.mp (h i)).2 x y hx hy

end Data

/-! ## Reading values that are alike -/

namespace Table

variable {t : Table} {p : Plan} {v w : Value} {x : Data}

section Leaf

variable {α : Type} {s : ShapeOf α}

theorem eq_of_readLeaf? (hs : s ≠ .any) (hd : v.kind ≠ .double) (hr : s.readLeaf? v = some x)
    (h : Value.Alike R w v) : w = v := by
  cases s with
  | any => exact absurd rfl hs
  | array | object | choices => cases hr
  | function b =>
    cases b with
    | true => cases v <;> first | exact h.eq_of_atom rfl rfl hd | cases hr
    | false =>
      cases v with
      | dict d =>
        obtain ⟨es⟩ := d
        cases es with
        | nil => exact h.eq_empty
        | cons => cases hr
      | null | bool | int | double | string | binary | list => cases hr
  | boolean | integer | int64 | double | string | binary | enumeration =>
    cases v <;> first | exact h.eq_of_atom rfl rfl hd | cases hr

/-- Where no double is read, the only ones in the data come from integers. -/
theorem alike_self_of_readLeaf? (hR : Double.Comparison R) (hs : s ≠ .any) (hd : v.kind ≠ .double)
    (hr : s.readLeaf? v = some x) : Data.Alike R x x := by
  cases s with
  | any => exact absurd rfl hs
  | array | object | choices => cases hr
  | double =>
    cases v with
    | int n =>
      cases hr
      exact Data.alike_of_head (fun _ => rfl) (fun _ => rfl) (hR.ofInt n.toInt)
    | double => exact absurd rfl hd
    | null | bool | string | binary | list | dict => cases hr
  | function b =>
    cases b with
    | true =>
      obtain ⟨_, -, rfl⟩ := Option.map_eq_some_iff.mp hr
      exact Data.alike_of_head (fun _ => rfl) (fun _ => rfl) rfl
    | false =>
      obtain ⟨_, -, rfl⟩ := Option.map_eq_some_iff.mp hr
      exact Data.alike_function_empty
  | boolean | integer | int64 | string | binary | enumeration =>
    obtain ⟨_, -, rfl⟩ := Option.map_eq_some_iff.mp hr
    exact Data.alike_of_head (fun _ => rfl) (fun _ => rfl) rfl

theorem exists_readLeaf?_double (hR : Double.Comparison R) (hs : s ≠ .any) {a b : Double} (h : R b a)
    (hr : s.readLeaf? (.double a) = some x) :
    ∃ y, s.readLeaf? (.double b) = some y ∧ Data.Alike R y x := by
  cases s with
  | any => exact absurd rfl hs
  | double =>
    cases hr
    exact ⟨.double b, rfl, Data.alike_of_head (fun _ => rfl) (fun _ => rfl) h⟩
  | int64 =>
    have hint : int64? (.double b) = int64? (.double a) := by
      simp only [int64?, integral?, hR.toInt?_eq h]
    refine ⟨x, by rwa [ShapeOf.readLeaf?, hint], ?_⟩
    obtain ⟨_, -, rfl⟩ := Option.map_eq_some_iff.mp hr
    exact Data.alike_of_head (fun _ => rfl) (fun _ => rfl) rfl
  | function b => cases b <;> cases hr
  | boolean | integer | string | binary | enumeration | array | object | choices => cases hr

theorem exists_readLeaf? (hR : Double.Comparison R) (hr : s.readLeaf? v = some x)
    (h : Value.Alike R w v) : ∃ y, s.readLeaf? w = some y ∧ Data.Alike R y x := by
  by_cases hs : s = .any
  · subst hs
    cases hr
    exact ⟨.any w, rfl, Data.alike_any_iff.mpr h⟩
  by_cases hd : v.kind = .double
  · have hh := h.head
    cases v with
    | double a =>
      cases w with
      | double b => exact exists_readLeaf?_double hR hs hh hr
      | null | bool | int | string | binary | list | dict => exact hh.elim
    | null | bool | int | string | binary | list | dict => cases hd
  · rw [eq_of_readLeaf? hs hd hr h]
    exact ⟨x, hr, alike_self_of_readLeaf? hR hs hd hr⟩

end Leaf

/-- What is alike to `v` is read as data that is alike to what `v` is read as. -/
def Respects (t : Table) (R : Double → Double → Prop) (p : Plan) (v : Value) : Prop :=
  ∀ x w, t.read? p v = some x → Value.Alike R w v → v.Regular → w.Regular →
    ∃ y, t.read? p w = some y ∧ Data.Alike R y x

theorem exists_readItems {items : Plan} {vs ws : List Value} {xs : List Data}
    (ih : ∀ v ∈ vs, t.Respects R items v)
    (hr : List.Forall₂ (fun v x => t.read? items v = some x) vs xs)
    (h : List.Forall₂ (Value.Alike R) ws vs) (hv : ∀ v ∈ vs, v.Regular) (hw : ∀ w ∈ ws, w.Regular) :
    ∃ ys, List.Forall₂ (fun w y => t.read? items w = some y) ws ys ∧
      List.Forall₂ (Data.Alike R) ys xs := by
  induction hr generalizing ws with
  | nil =>
    cases h
    exact ⟨[], .nil, .nil⟩
  | cons hx _ ihs =>
    cases h with
    | cons hwv h =>
      rw [List.forall_mem_cons] at ih hv hw
      obtain ⟨y, hy, hyx⟩ := ih.1 _ _ hx hwv hv.1 hw.1
      obtain ⟨ys, hys, hall⟩ := ihs ih.2 h hv.2 hw.2
      exact ⟨y :: ys, .cons hy hys, .cons hyx hall⟩

theorem exists_read?_of_readSlot? {q : PropertyPlan} (hi : t.ignores q = false) {slot : Option Data}
    (h : t.readSlot? q (some v) = some slot) : ∃ x, t.read? q.plan v = some x ∧ some x = slot := by
  rw [readSlot?, hi, if_neg Bool.false_ne_true] at h
  exact Option.map_eq_some_iff.mp h

theorem rel_absentSlot (t : Table) (p : Plan) :
    Option.Rel (Data.Alike R) (t.absentSlot p) (t.absentSlot p) := by
  unfold absentSlot
  split
  · exact .some (Data.alike_of_head (fun _ => rfl) (fun _ => rfl) rfl)
  · exact .none

/-- Slots of one property are alike if their values are read alike, where they are read at all. -/
theorem exists_readSlot?_iff {q : PropertyPlan} {u u' : Option Value}
    {slot : Option Data} (hr : t.readSlot? q u = some slot) (hu : u.isSome = u'.isSome) :
    (∃ slot', t.readSlot? q u' = some slot' ∧ Option.Rel (Data.Alike R) slot' slot) ↔
      ∀ v w, u = some v → u' = some w → t.ignores q = false →
        ∃ x y, t.read? q.plan v = some x ∧ t.read? q.plan w = some y ∧ Data.Alike R y x := by
  cases u with
  | none =>
    cases u' with
    | none =>
      have hrefl : Option.Rel (Data.Alike R) slot slot := by
        rw [readSlot?] at hr
        split at hr
        · rw [← Option.some.inj hr]
          exact rel_absentSlot t q.plan
        · cases hr
      refine iff_of_true ⟨slot, hr, hrefl⟩ ?_
      intro v w hv
      cases hv
    | some => cases hu
  | some v =>
    cases u' with
    | none => cases hu
    | some w =>
      cases hi : t.ignores q with
      | true =>
        rw [readSlot?, if_pos hi] at hr ⊢
        cases hr
        refine iff_of_true ⟨_, rfl, .some Data.alike_function_empty⟩ ?_
        intro v w _ _ hi
        cases hi
      | false =>
        obtain ⟨x, hx, rfl⟩ := exists_read?_of_readSlot? hi hr
        constructor
        · rintro ⟨slot', hr', hrel⟩ _ _ ⟨⟩ ⟨⟩ -
          obtain ⟨y, hy, rfl⟩ := exists_read?_of_readSlot? hi hr'
          cases hrel with
          | some halike => exact ⟨x, y, hx, hy, halike⟩
        · intro h
          obtain ⟨x', y, hx', hy, halike⟩ := h v w rfl rfl rfl
          rw [hx] at hx'
          cases hx'
          refine ⟨some y, ?_, .some halike⟩
          rw [readSlot?, hi, if_neg Bool.false_ne_true, hy, Option.map_some]

theorem get?_of_readEntries? {a : Plan} {d : Dict Value} {es : List (String × Data)} (hd : d.Distinct)
    (h : t.readEntries? a d.entries = some es) (k : String) :
    (Dict.ofList es).get? k = (d.get? k).bind (t.read? a) :=
  Dict.get?_ofList_of_mapM hd h k

theorem exists_read?_of_readEntries? {a : Plan} {es : List (String × Value)}
    {xs : List (String × Data)} (h : t.readEntries? a es = some xs) {e : String × Value} (he : e ∈ es) :
    ∃ x, t.read? a e.2 = some x := by
  obtain ⟨_, -, hx⟩ := Forall₂.exists_right (mapM_eq_some_iff.mp h) e he
  obtain ⟨x, hx, -⟩ := Option.map_eq_some_iff.mp hx
  exact ⟨x, hx⟩

section Typed

variable {o : ObjectPlan} {a : Plan} (ha : o.additional = some a) (hs : t.shape a ≠ .any)

include ha hs

theorem readExtras?_typed (d : Dict Value) :
    t.readExtras? o d = (t.readEntries? a d.entries).map fun es => .typed (.ofList es) := by
  simp only [readExtras?, ha]

theorem exists_entries_of_readExtras? {d : Dict Value} {extras : Extras}
    (h : t.readExtras? o d = some extras) :
    ∃ es, t.readEntries? a d.entries = some es ∧ extras = .typed (.ofList es) := by
  rw [readExtras?_typed ha hs] at h
  obtain ⟨es, hes, rfl⟩ := Option.map_eq_some_iff.mp h
  exact ⟨es, hes, rfl⟩

/-- Typed extra properties under the same keys are alike if they are read alike one by one. -/
theorem exists_readExtras?_iff {d e : Dict Value} {extras : Extras} (hd : d.Distinct) (he : e.Distinct)
    (hr : t.readExtras? o d = some extras) (hkeys : ∀ k, (d.get? k).isSome = (e.get? k).isSome) :
    (∃ extras', t.readExtras? o e = some extras' ∧ Data.AlikeExtras R extras' extras) ↔
      ∀ k v w, d.get? k = some v → e.get? k = some w →
        ∃ x y, t.read? a v = some x ∧ t.read? a w = some y ∧ Data.Alike R y x := by
  obtain ⟨es, hes, rfl⟩ := exists_entries_of_readExtras? ha hs hr
  constructor
  · rintro ⟨extras', hr', halike⟩ k v w hv hw
    obtain ⟨fs, hfs, rfl⟩ := exists_entries_of_readExtras? ha hs hr'
    obtain ⟨x, hx⟩ := exists_read?_of_readEntries? hes (Dict.mem_of_get? hv)
    obtain ⟨y, hy⟩ := exists_read?_of_readEntries? hfs (Dict.mem_of_get? hw)
    cases halike with
    | typed h =>
      have hk := h k
      rw [get?_of_readEntries? he hfs, get?_of_readEntries? hd hes, hv, hw, Option.bind_some,
        Option.bind_some, hx, hy] at hk
      cases hk with
      | some halike => exact ⟨x, y, hx, hy, halike⟩
  · intro h
    -- each entry of the one dictionary has its counterpart in the other, which is read
    have hread : ∀ k w, e.get? k = some w → ∃ v x y, d.get? k = some v ∧
        t.read? a v = some x ∧ t.read? a w = some y ∧ Data.Alike R y x := by
      intro k w hw
      have hk := hkeys k
      rw [hw, Option.isSome_some, Option.isSome_iff_exists] at hk
      obtain ⟨v, hv⟩ := hk
      obtain ⟨x, y, hxy⟩ := h k v w hv hw
      exact ⟨v, x, y, hv, hxy⟩
    have hsome : (t.readEntries? a e.entries).isSome = true := by
      rw [readEntries?, isSome_mapM]
      intro r hr
      obtain ⟨-, -, y, -, -, hy, -⟩ := hread r.1 r.2 (Dict.get?_of_mem he hr)
      rw [hy]
      rfl
    obtain ⟨fs, hfs⟩ := Option.isSome_iff_exists.mp hsome
    refine ⟨.typed (.ofList fs), by rw [readExtras?_typed ha hs, hfs]; rfl, .typed fun k => ?_⟩
    rw [get?_of_readEntries? he hfs, get?_of_readEntries? hd hes]
    cases hw : e.get? k with
    | none =>
      have hk := hkeys k
      rw [hw, Option.isSome_none, Option.isSome_eq_false_iff, Option.isNone_iff_eq_none] at hk
      rw [hk]
      exact .none
    | some w =>
      obtain ⟨v, x, y, hv, hx, hy, halike⟩ := hread k w hw
      rw [hv, Option.bind_some, Option.bind_some, hx, hy]
      exact .some halike

end Typed

theorem exists_readExtras? {o : ObjectPlan} {d e : Dict Value} {extras : Extras}
    (ih : ∀ a, o.additional = some a → ∀ k v, d.get? k = some v → t.Respects R a v)
    (hr : t.readExtras? o d = some extras) (h : Value.Alike R (.dict e) (.dict d))
    (hd : Value.Regular (.dict d)) (he : Value.Regular (.dict e)) :
    ∃ extras', t.readExtras? o e = some extras' ∧ Data.AlikeExtras R extras' extras := by
  have hget := Value.alike_dict_iff.mp h
  cases ha : o.additional with
  | none =>
    simp only [readExtras?, ha] at hr ⊢
    cases hr
    exact ⟨.closed, rfl, .closed⟩
  | some a =>
    by_cases hs : t.shape a = .any
    · simp only [readExtras?, ha, hs] at hr ⊢
      cases hr
      refine ⟨_, rfl, .any ?_⟩
      rwa [Value.merge_empty he.distinct, Value.merge_empty hd.distinct]
    · refine (exists_readExtras?_iff ha hs hd.distinct he.distinct hr
        fun k => (optionRel_iff.mp (hget k)).1.symm).mpr fun k v w hv hw => ?_
      obtain ⟨es, hes, rfl⟩ := exists_entries_of_readExtras? ha hs hr
      obtain ⟨x, hx⟩ := exists_read?_of_readEntries? hes (Dict.mem_of_get? hv)
      have hwv := (optionRel_iff.mp (hget k)).2 w v hw hv
      obtain ⟨y, hy, hyx⟩ := ih a ha k v hv x w hx hwv (hd.of_get? hv) (he.of_get? hw)
      exact ⟨x, y, hx, hy, hyx⟩

/-- Objects that `readObject?` yields for one plan are compared by its properties. -/
theorem alike_readObject?_iff {o : ObjectPlan} {d e : Dict Value} {x y : Object}
    (hn : (o.properties.map (·.name)).Nodup) (hx : t.readObject? o d = some x)
    (hy : t.readObject? o e = some y) :
    Data.Alike R (.object y) (.object x) ↔
      (∀ q ∈ o.properties, Option.Rel (Data.Alike R) (y.get? q.name) (x.get? q.name)) ∧
        Data.AlikeExtras R y.extras x.extras := by
  have hkeys : y.fields.keys = x.fields.keys := by
    rw [keys_of_readObject? hn hy, keys_of_readObject? hn hx]
  rw [Data.alike_object_iff]
  constructor
  · rintro ⟨-, fields, extras⟩
    exact ⟨fun q _ => fields q.name, extras⟩
  · rintro ⟨fields, extras⟩
    refine ⟨fun k => ?_, fun k => ?_, extras⟩
    · rw [Bool.eq_iff_iff, Dict.contains_eq_true_iff, Dict.contains_eq_true_iff, hkeys]
    · by_cases hk : k ∈ x.fields.keys
      · rw [keys_of_readObject? hn hx] at hk
        obtain ⟨q, hq, rfl⟩ := List.mem_map.mp hk
        exact fields q hq
      · rw [Data.ObjectOf.get?, Data.ObjectOf.get?, Dict.get?_eq_none_iff.mpr hk,
          Dict.get?_eq_none_iff.mpr (hkeys ▸ hk)]
        exact .none

/-- Dictionaries with the same declared keys are read alike if their properties are. -/
theorem exists_readObject?_iff {o : ObjectPlan} {d e : Dict Value} {x : Object}
    (hn : (o.properties.map (·.name)).Nodup) (hx : t.readObject? o d = some x)
    (hkeys : ∀ q ∈ o.properties, (d.get? q.name).isSome = (e.get? q.name).isSome) :
    (∃ y, t.readObject? o e = some y ∧ Data.Alike R (.object y) (.object x)) ↔
      (∀ q ∈ o.properties, ∀ v w, d.get? q.name = some v → e.get? q.name = some w →
        t.ignores q = false →
          ∃ x y, t.read? q.plan v = some x ∧ t.read? q.plan w = some y ∧ Data.Alike R y x) ∧
      ∃ extras, t.readExtras? o e = some extras ∧ Data.AlikeExtras R extras x.extras := by
  have hslot := fun q hq => exists_readSlot?_iff (R := R) (readSlot?_of_readObject? hn hx hq) (hkeys q hq)
  constructor
  · rintro ⟨y, hy, halike⟩
    obtain ⟨fields, extras⟩ := (alike_readObject?_iff hn hx hy).mp halike
    refine ⟨fun q hq => (hslot q hq).mp ?_, y.extras, readExtras?_of_readObject? hy, extras⟩
    exact ⟨y.get? q.name, readSlot?_of_readObject? hn hy hq, fields q hq⟩
  · rintro ⟨slots, extras, hextras, halike⟩
    have hsome : (t.readObject? o e).isSome = true := by
      rw [isSome_readObject?_iff, hextras]
      refine ⟨fun q hq => ?_, rfl⟩
      obtain ⟨slot, hr, -⟩ := (hslot q hq).mpr (slots q hq)
      rw [hr]
      rfl
    obtain ⟨y, hy⟩ := Option.isSome_iff_exists.mp hsome
    refine ⟨y, hy, (alike_readObject?_iff hn hx hy).mpr ⟨fun q hq => ?_, ?_⟩⟩
    · obtain ⟨slot, hr, hrel⟩ := (hslot q hq).mpr (slots q hq)
      rw [readSlot?_of_readObject? hn hy hq] at hr
      rw [Option.some.inj hr]
      exact hrel
    · rw [readExtras?_of_readObject? hy] at hextras
      rw [Option.some.inj hextras]
      exact halike

theorem exists_readObject? {o : ObjectPlan} {d e : Dict Value} {x : Object}
    (hs : t.shape p = .object o) (hn : (o.properties.map (·.name)).Nodup)
    (ih : ∀ q, t.Part q p → ∀ u, Value.Part u (.dict d) → t.Respects R q u)
    (hr : t.readObject? o d = some x)
    (h : Value.Alike R (.dict e) (.dict d)) (hd : Value.Regular (.dict d))
    (he : Value.Regular (.dict e)) :
    ∃ y, t.readObject? o e = some y ∧ Data.Alike R (.object y) (.object x) := by
  have hget := fun k => optionRel_iff.mp (Value.alike_dict_iff.mp h k)
  refine (exists_readObject?_iff hn hr fun q _ => (hget q.name).1.symm).mpr ⟨?_, ?_⟩
  · intro q hq v w hv hw hi
    have hslot := readSlot?_of_readObject? hn hr hq
    rw [hv] at hslot
    obtain ⟨x, hx, -⟩ := exists_read?_of_readSlot? hi hslot
    have hwv := (hget q.name).2 w v hw hv
    obtain ⟨y, hy, hyx⟩ := ih q.plan (part_property hs hq) v (.of_get? hv) x w hx hwv (hd.of_get? hv)
      (he.of_get? hw)
    exact ⟨x, y, hx, hy, hyx⟩
  · exact exists_readExtras? (fun a ha k v hv => ih a (part_additional hs ha) v (.of_get? hv))
      (readExtras?_of_readObject? hr) h hd he

/-- A choice is alike to one with the same slot engaged, if what the slots hold is alike; all other
slots are those of `newChoice`. -/
theorem alike_set_newChoice {c : ChoicesPlan} {i : Nat} {u : VariantPlan}
    (hu : c.variants[i]? = some u) {x y : Data} (h : Data.Alike R y x) :
    Data.Alike R (.choice ⟨(t.newChoice c).slots.set i (some y)⟩)
      (.choice ⟨(t.newChoice c).slots.set i (some x)⟩) := by
  refine Data.alike_choice_iff.mpr ⟨by simp, fun j => ?_⟩
  rw [get?_set_newChoice t hu, get?_set_newChoice t hu]
  split
  · exact .some h
  · rw [get?_newChoice]
    cases c.variants[j]? with
    | none => exact .none
    | some u => exact rel_absentSlot t u.plan

/-- Values that are alike are read as data that is alike, by `read_induction`. -/
theorem respects (hR : Double.Comparison R) (hu : t.UniqueNames p) (v : Value) : t.Respects R p v := by
  induction p, v using read_induction t with
  | step p v ihv ihw =>
    intro x w hr h hv hw
    cases readsAs_of_read? hr with
    | leaf hs hx =>
      rw [read?_leaf hs]
      exact exists_readLeaf? hR hx h
    | @array items vs xs hs hx =>
      cases w with
      | list ws =>
        obtain ⟨ys, hys, hall⟩ := exists_readItems
          (fun u hm => ihv u (.item hm) items (hu.part (part_item hs))) hx (Value.alike_list_iff.mp h)
          (Value.regular_list_iff.mp hv) (Value.regular_list_iff.mp hw)
        refine ⟨.array ys, ?_, Data.alike_array_iff.mpr hall⟩
        rw [read?_array hs, Value.list?, Option.bind_some, mapM_eq_some_iff.mpr hys, Option.map_some]
      | null | bool | int | double | string | binary | dict => exact h.head.elim
    | @object o d x hs hx =>
      cases w with
      | dict e =>
        obtain ⟨y, hy, halike⟩ := exists_readObject? hs (hu.nodup hs)
          (fun q hq u hm => ihv u hm q (hu.part hq)) hx h hv hw
        refine ⟨.object y, ?_, halike⟩
        rw [read?_object hs, Value.dict?, Option.bind_some, hy, Option.map_some]
      | null | bool | int | double | string | binary | list => exact h.head.elim
    | @choice c v x hs hx =>
      obtain ⟨i, u, y, hp, hy, rfl⟩ := exists_of_readChoice? hx
      have hm := getElem?_of_pick hp
      obtain ⟨y', hy', halike⟩ :=
        ihw c hs u (List.mem_of_getElem? hm) (hu.part (part_variant hs (List.mem_of_getElem? hm))) y w hy h hv hw
      refine ⟨_, ?_, alike_set_newChoice hm halike⟩
      rw [read?_choices hs, readChoice?, pick_congr h.kind_eq, hp, Option.bind_some, hy', Option.map_some,
        Option.map_some]

end Table

end Interchange
