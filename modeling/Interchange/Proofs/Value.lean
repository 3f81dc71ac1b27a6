import Interchange.Proofs.Dict
import Interchange.Value.Merge
import Mathlib.Logic.Relation

/-! # Values as trees

A value is `Regular` when no dictionary in it has a key twice, and two values are `Alike` when they
differ in the order of their dictionaries only. `Alike` is an equivalence, and agrees with equality
of kinds (`Alike.kind_eq`).
-/

namespace Interchange.Value

open Relation (ReflTransGen)

/-! ## Parts -/

/-- An item of a list, or what stands under a key of a dictionary. -/
inductive Part : Value → Value → Prop
  | item {v : Value} {vs : List Value} (h : v ∈ vs) : Part v (.list vs)
  | entry {p : String × Value} {d : Dict Value} (h : p ∈ d.entries) : Part p.2 (.dict d)

theorem Part.sizeOf_lt {u v : Value} (h : Part u v) : sizeOf u < sizeOf v := by
  cases h with
  | item h =>
    have := List.sizeOf_lt_of_mem h
    simp
    omega
  | entry h =>
    have := Dict.sizeOf_entry_lt h
    simp
    omega

theorem Part.of_get? {d : Dict Value} {k : String} {v : Value} (h : d.get? k = some v) :
    Part v (.dict d) :=
  .entry (Dict.mem_of_get? h)

theorem part_induction {motive : Value → Prop}
    (step : ∀ v, (∀ u, Part u v → motive u) → motive v) (v : Value) : motive v :=
  step v fun u _ => part_induction step u
termination_by sizeOf v
decreasing_by exact Part.sizeOf_lt ‹_›

/-! ## Regular values -/

/-- In no dictionary of the value is a key entered twice. The order `ReflTransGen Part` reaches all
of them. -/
def Regular (v : Value) : Prop := ∀ d, ReflTransGen Part (.dict d) v → d.Distinct

theorem Regular.part {u v : Value} (hv : Regular v) (h : Part u v) : Regular u :=
  fun d hd => hv d (hd.tail h)

theorem Regular.distinct {d : Dict Value} (h : Regular (.dict d)) : d.Distinct := h d .refl

theorem Regular.of_get? {d : Dict Value} (h : Regular (.dict d)) {k : String} {v : Value}
    (hk : d.get? k = some v) : Regular v :=
  h.part (.of_get? hk)

/-- What holds of the parts, and of the value itself if it is a dictionary, holds at every depth. -/
theorem regular_of_parts {v : Value} (hd : ∀ d, v = .dict d → d.Distinct)
    (h : ∀ u, Part u v → Regular u) : Regular v := by
  intro d hdv
  rcases hdv.cases_tail with rfl | ⟨u, hdu, huv⟩
  · exact hd d rfl
  · exact h u huv d hdu

theorem regular_atom {v : Value} (hl : v.list? = none) (hd : v.dict? = none) : Regular v := by
  refine regular_of_parts ?_ ?_
  · rintro d rfl
    cases hd
  · intro u hu
    cases hu with
    | item => cases hl
    | entry => cases hd

theorem regular_list_iff {vs : List Value} : Regular (.list vs) ↔ ∀ v ∈ vs, Regular v := by
  constructor
  · exact fun h v hv => h.part (.item hv)
  · intro h
    refine regular_of_parts nofun ?_
    intro u hu
    cases hu with
    | item hu => exact h u hu

theorem regular_dict_iff {d : Dict Value} :
    Regular (.dict d) ↔ d.Distinct ∧ ∀ p ∈ d.entries, Regular p.2 := by
  constructor
  · exact fun h => ⟨h.distinct, fun p hp => h.part (.entry hp)⟩
  · rintro ⟨hd, h⟩
    refine regular_of_parts ?_ ?_
    · rintro _ ⟨⟩
      exact hd
    · intro u hu
      cases hu with
      | entry hp => exact h _ hp

theorem regular_pair {k l : String} (h : k ≠ l) {v w : Value} (hv : Regular v) (hw : Regular w) :
    Regular (.dict ⟨[(k, v), (l, w)]⟩) := by
  apply regular_dict_iff.mpr
  refine ⟨by simp [Dict.Distinct, Dict.keys, h], fun p hp => ?_⟩
  rcases List.mem_pair.mp hp with rfl | rfl
  · exact hv
  · exact hw

/-! ## Values that are alike -/

/-- A way from a value to one of its parts. -/
inductive Step
  | item (i : Nat)
  | entry (key : String)

/-- The part that a step leads to. -/
def child : Value → Step → Option Value
  | .list vs, .item i => vs[i]?
  | .dict d, .entry k => d.get? k
  | _, _ => none

/-- Values of one kind with the same content, parts left aside (see `child`) and doubles compared by
`R`. -/
def SameHead (R : Double → Double → Prop) : Value → Value → Prop
  | .null, .null => True
  | .bool a, .bool b => a = b
  | .int a, .int b => a = b
  | .double a, .double b => R a b
  | .string a, .string b => a = b
  | .binary a, .binary b => a = b
  | .list _, .list _ => True
  | .dict _, .dict _ => True
  | _, _ => False

/-- Values with the same content at every place: dictionaries are compared as maps, and doubles by
`R`. Values that are `same` are alike for `Double.Same`. -/
inductive Alike (R : Double → Double → Prop) : Value → Value → Prop
  | intro {v w : Value} (head : SameHead R v w)
      (places : ∀ s, (v.child s).isSome = (w.child s).isSome)
      (parts : ∀ s a b, v.child s = some a → w.child s = some b → Alike R a b) : Alike R v w

variable {R S T : Double → Double → Prop}

theorem Alike.head {v w : Value} : Alike R v w → SameHead R v w
  | .intro h _ _ => h

theorem part_of_child {v a : Value} {s : Step} (h : v.child s = some a) : Part a v := by
  cases v with
  | list vs =>
    cases s with
    | item i => exact .item (List.mem_of_getElem? h)
    | entry k => cases h
  | dict d =>
    cases s with
    | item i => cases h
    | entry k => exact .of_get? h
  | null | bool | int | double | string | binary => cases h

theorem SameHead.refl (hR : ∀ d, R d d) (v : Value) : SameHead R v v := by
  cases v <;> simp [SameHead, hR]

theorem SameHead.kind_eq {v w : Value} (h : SameHead R v w) : v.kind = w.kind := by
  cases v <;> cases w <;> simp_all [SameHead, kind]

theorem Alike.kind_eq {v w : Value} (h : Alike R v w) : v.kind = w.kind := h.head.kind_eq

theorem Alike.refl (hR : ∀ d, R d d) (v : Value) : Alike R v v := by
  refine .intro (.refl hR v) (fun _ => rfl) fun s a b ha hb => ?_
  rw [ha] at hb
  cases hb
  exact Alike.refl hR a
termination_by sizeOf v
decreasing_by exact (part_of_child ha).sizeOf_lt

theorem Alike.symm (hR : ∀ {a b}, R a b → R b a) {v w : Value} (h : Alike R v w) : Alike R w v := by
  induction h with
  | @intro v w head places _ ih =>
    refine .intro ?_ (fun s => (places s).symm) fun s a b ha hb => ih s b a hb ha
    cases v <;> cases w <;> simp_all [SameHead]

theorem SameHead.trans {u v w : Value} (h : SameHead R u v) (h' : SameHead S v w)
    (hT : ∀ a b c, R a b → S b c → T a c) : SameHead T u w := by
  cases u <;> cases v <;> first | exact h.elim | skip
  all_goals cases w <;> first | exact h'.elim | exact hT _ _ _ h h' | exact Eq.trans h h' | trivial

theorem Alike.trans {u v w : Value} (h : Alike R u v) (h' : Alike S v w)
    (hT : ∀ a b c, R a b → S b c → T a c) : Alike T u w := by
  induction h generalizing w with
  | @intro u v head places _ ih =>
    cases h' with
    | intro head' places' parts' =>
      refine .intro (head.trans head' hT) (fun s => (places s).trans (places' s)) ?_
      intro s a c ha hc
      have hb := (places s).symm
      rw [ha, Option.isSome_some, Option.isSome_iff_exists] at hb
      obtain ⟨b, hb⟩ := hb
      exact ih s a b ha hb (parts' s b c hb hc)

/-- Values without parts are alike if their content is the same. -/
theorem alike_of_head {v w : Value} (hv : ∀ s, v.child s = none) (hw : ∀ s, w.child s = none)
    (h : SameHead R v w) : Alike R v w := by
  refine .intro h (fun s => by rw [hv, hw]) fun s a b ha => ?_
  rw [hv] at ha
  cases ha

theorem alike_list_iff {vs ws : List Value} :
    Alike R (.list vs) (.list ws) ↔ List.Forall₂ (Alike R) vs ws := by
  rw [forall₂_iff_getElem?]
  constructor
  · rintro ⟨-, places, parts⟩ i
    exact optionRel_iff.mpr ⟨places (.item i), parts (.item i)⟩
  · intro h
    refine .intro trivial ?_ ?_
    · rintro (i | k)
      · exact (optionRel_iff.mp (h i)).1
      · rfl
    · rintro (i | k) a b ha hb
      · exact (optionRel_iff.mp (h i)).2 a b ha hb
      · cases ha

theorem alike_dict_iff {d e : Dict Value} :
    Alike R (.dict d) (.dict e) ↔ ∀ k, Option.Rel (Alike R) (d.get? k) (e.get? k) := by
  constructor
  · rintro ⟨-, places, parts⟩ k
    exact optionRel_iff.mpr ⟨places (.entry k), parts (.entry k)⟩
  · intro h
    refine .intro trivial ?_ ?_
    · rintro (i | k)
      · rfl
      · exact (optionRel_iff.mp (h k)).1
    · rintro (i | k) a b ha hb
      · cases ha
      · exact (optionRel_iff.mp (h k)).2 a b ha hb

theorem alike_swap {k l : String} (h : k ≠ l) {v v' w w' : Value} (hv : Alike R v v')
    (hw : Alike R w w') :
    Alike R (.dict ⟨[(k, v), (l, w)]⟩) (.dict ⟨[(l, w'), (k, v')]⟩) := by
  refine alike_dict_iff.mpr fun i => ?_
  simp only [Dict.get?, List.lookup_cons, List.lookup_nil]
  by_cases hk : i = k
  · have hl : (k == l) = false := beq_eq_false_iff_ne.mpr h
    simp only [hk, beq_self_eq_true, hl]
    exact .some hv
  · by_cases hl : i = l
    · simp only [hl, beq_self_eq_true, beq_eq_false_iff_ne.mpr h.symm]
      exact .some hw
    · simp only [beq_eq_false_iff_ne.mpr hk, beq_eq_false_iff_ne.mpr hl]
      exact .none

end Interchange.Value
