import Interchange.Proofs.Reporting
import Interchange.Proofs.RoundTrip

/-! # Which variant of a choice takes a value

The first variant that suits the value by its kind is asked (`FirstToSuit`), and no other one,
whether it takes the value or refuses it. A choice that is read holds nothing but what that variant
has made of the value (`Engages`); one that is not read holds nothing. `Selection` lists the cases.
-/

namespace Interchange

open Plan Populate

namespace Table

variable {t : Table} {p : Plan} {c : ChoicesPlan} {key : Option String} {v : Value} {i : Nat}
  {w : VariantPlan} {x : Data} {y : Choice} {f : Fault}

/-! ## The first variant -/

/-- Variant `i` is the first one that `admits` a value, the one that `pick` finds. -/
structure FirstToSuit (t : Table) (c : ChoicesPlan) (v : Value) (i : Nat) (w : VariantPlan) : Prop where
  variant : c.variants[i]? = some w
  admits : t.admits w.plan v = true
  first : ∀ j w', j < i → c.variants[j]? = some w' → t.admits w'.plan v = false

theorem pick_eq_none_iff {ws : List VariantPlan} {k : Nat} :
    t.pick v k ws = none ↔ ∀ w ∈ ws, t.admits w.plan v = false := by
  induction ws generalizing k with
  | nil => simp [pick]
  | cons w ws ih =>
    rw [pick, List.forall_mem_cons, ← ih (k := k + 1)]
    cases t.admits w.plan v <;> simp

theorem pick_eq_some_iff_firstToSuit : t.pick v 0 c.variants = some (i, w) ↔ t.FirstToSuit c v i w := by
  constructor
  · intro h
    exact ⟨getElem?_of_pick h, admits_of_pick h, fun _ _ hj hw' => admits_of_lt_pick h hj hw'⟩
  · intro h
    cases hp : t.pick v 0 c.variants with
    | none =>
      have hnone := pick_eq_none_iff.mp hp w (List.mem_of_getElem? h.variant)
      rw [h.admits] at hnone
      cases hnone
    | some r =>
      obtain ⟨j, u⟩ := r
      -- Neither variant can come before the other one.
      rcases Nat.lt_trichotomy i j with hlt | rfl | hlt
      · have hi := admits_of_lt_pick hp hlt h.variant
        rw [h.admits] at hi
        cases hi
      · cases (getElem?_of_pick hp).symm.trans h.variant
        rfl
      · have hj := h.first j u hlt (getElem?_of_pick hp)
        rw [admits_of_pick hp] at hj
        cases hj

theorem convertChoice_of_firstToSuit (h : t.FirstToSuit c v i w) (key : Option String) :
    t.convertChoice c key v =
      (t.convert w.plan (some w.label) v).map fun x => ⟨(t.newChoice c).slots.set i (some x)⟩ := by
  rw [convertChoice]
  split <;> rename_i hp <;> rw [pick_eq_some_iff_firstToSuit.mpr h] at hp <;> cases hp
  rfl

theorem populateChoice_of_unmatched (h : ∀ w ∈ c.variants, t.admits w.plan v = false)
    (key : Option String) :
    t.populateChoice c key v =
      (t.newChoice c, some (.noVariant key (c.variants.map (·.label)) v.kind)) := by
  have hconvert : t.convertChoice c key v =
      .error (.noVariant key (c.variants.map (·.label)) v.kind) := by
    rw [convertChoice]
    split
    · rfl
    · rename_i hp
      rw [pick_eq_none_iff.mpr h] at hp
      cases hp
  rw [populateChoice, hconvert]

theorem populateChoice_of_error (h : t.FirstToSuit c v i w)
    (hf : t.convert w.plan (some w.label) v = .error f) (key : Option String) :
    t.populateChoice c key v = (t.newChoice c, some f) := by
  rw [populateChoice, convertChoice_of_firstToSuit h, hf]
  rfl

theorem populateChoice_of_ok (h : t.FirstToSuit c v i w)
    (hx : t.convert w.plan (some w.label) v = .ok x) (key : Option String) :
    t.populateChoice c key v = (⟨(t.newChoice c).slots.set i (some x)⟩, none) := by
  rw [populateChoice, convertChoice_of_firstToSuit h, hx]
  rfl

/-! ## Selection -/

/-- A choice holds nothing but `x`, in slot `i`. -/
structure Engages (t : Table) (c : ChoicesPlan) (i : Nat) (x : Data) (y : Choice) : Prop where
  content : y.slots[i]? = some (some x)
  others : ∀ j ≠ i, y.slots[j]? = (t.newChoice c).slots[j]?
  engaged : y.engaged = [i]

theorem engages_set_newChoice (hw : c.variants[i]? = some w) (hx : t.convert w.plan key v = .ok x) :
    t.Engages c i x ⟨(t.newChoice c).slots.set i (some x)⟩ where
  content := by
    have hi : i < (t.newChoice c).slots.length := by
      simpa [newChoice] using (List.getElem?_eq_some_iff.mp hw).1
    rw [List.getElem?_set_self hi]
  others j hj := List.getElem?_set_ne (Ne.symm hj)
  engaged := engaged_set_newChoice hw (engaged_of_read? (convert_eq_ok_iff.mp hx))

theorem engaged_newChoice_eq_nil (t : Table) (c : ChoicesPlan) : (t.newChoice c).engaged = [] := by
  apply List.filter_eq_nil_iff.mpr
  intro i _
  rw [engaged_newChoice]
  exact Bool.false_ne_true

/-- What comes of a choice that `populateChoice` reads a value into. The value of a variant that is
a choice itself is selected in the same way. -/
inductive Selection (t : Table) (v : Value) : ChoicesPlan → Option String → Outcome Choice → Prop
  | unmatched {c : ChoicesPlan} {key : Option String} (h : ∀ w ∈ c.variants, t.admits w.plan v = false) :
      Selection t v c key (t.newChoice c, some (.noVariant key (c.variants.map (·.label)) v.kind))
  | refused {c : ChoicesPlan} {key : Option String} {i : Nat} {w : VariantPlan} {f : Fault}
      (h : t.FirstToSuit c v i w) (hw : ∀ c', t.shape w.plan ≠ .choices c')
      (hf : t.convert w.plan (some w.label) v = .error f) :
      Selection t v c key (t.newChoice c, some f)
  | taken {c : ChoicesPlan} {key : Option String} {i : Nat} {w : VariantPlan} {x : Data} {y : Choice}
      (h : t.FirstToSuit c v i w) (hw : ∀ c', t.shape w.plan ≠ .choices c')
      (hx : t.convert w.plan (some w.label) v = .ok x) (hy : t.Engages c i x y) :
      Selection t v c key (y, none)
  | refusedWithin {c c' : ChoicesPlan} {key : Option String} {i : Nat} {w : VariantPlan} {y : Choice}
      {f : Fault} (h : t.FirstToSuit c v i w) (hw : t.shape w.plan = .choices c')
      (hf : Selection t v c' (some w.label) (y, some f)) :
      Selection t v c key (t.newChoice c, some f)
  | takenWithin {c c' : ChoicesPlan} {key : Option String} {i : Nat} {w : VariantPlan} {x y : Choice}
      (h : t.FirstToSuit c v i w) (hw : t.shape w.plan = .choices c')
      (hx : Selection t v c' (some w.label) (x, none)) (hy : t.Engages c i (.choice x) y) :
      Selection t v c key (y, none)

theorem convert_of_choices (h : t.shape p = .choices c) (key : Option String) (v : Value) :
    t.convert p key v = (t.convertChoice c key v).map .choice := by
  rw [convert]
  split <;> rename_i hs <;> rw [h] at hs <;> cases hs
  rfl

/-- A variant that is a choice itself passes on the `Selection` of that choice. -/
theorem selection_within {c' : ChoicesPlan} (h : t.FirstToSuit c v i w)
    (hw : t.shape w.plan = .choices c')
    (hwithin : t.Selection v c' (some w.label) (t.populateChoice c' (some w.label) v))
    (key : Option String) : t.Selection v c key (t.populateChoice c key v) := by
  have hconvert := convert_of_choices hw (some w.label) v
  rw [populateChoice] at hwithin
  cases hc : t.convertChoice c' (some w.label) v with
  | error f =>
    rw [hc] at hconvert hwithin
    rw [populateChoice_of_error h hconvert]
    exact .refusedWithin h hw hwithin
  | ok y =>
    rw [hc] at hconvert hwithin
    rw [populateChoice_of_ok h hconvert]
    exact .takenWithin h hw hwithin (engages_set_newChoice h.variant hconvert)

theorem selection_of_firstToSuit (h : t.FirstToSuit c v i w) (hw : ∀ c', t.shape w.plan ≠ .choices c')
    (key : Option String) : t.Selection v c key (t.populateChoice c key v) := by
  cases hc : t.convert w.plan (some w.label) v with
  | error f =>
    rw [populateChoice_of_error h hc]
    exact .refused h hw hc
  | ok x =>
    rw [populateChoice_of_ok h hc]
    exact .taken h hw hc (engages_set_newChoice h.variant hc)

theorem selection_populateChoice (h : t.shape p = .choices c) (key : Option String) (v : Value) :
    t.Selection v c key (t.populateChoice c key v) := by
  induction p, v using read_induction t generalizing c key with
  | step p v _ ihw =>
    cases hp : t.pick v 0 c.variants with
    | none =>
      have hnone := pick_eq_none_iff.mp hp
      rw [populateChoice_of_unmatched hnone]
      exact .unmatched hnone
    | some r =>
      obtain ⟨i, w⟩ := r
      have hfirst := pick_eq_some_iff_firstToSuit.mp hp
      by_cases hnested : ∃ c', t.shape w.plan = .choices c'
      · obtain ⟨c', hw⟩ := hnested
        exact selection_within hfirst hw (ihw c h w (mem_of_pick hp) hw (some w.label)) key
      · exact selection_of_firstToSuit hfirst (fun c' hw => hnested ⟨c', hw⟩) key

/-- How values are read into a choice of a plan: by a `Selection`, with the three cases spelled out.
-/
structure Selects (t : Table) (c : ChoicesPlan) : Prop where
  selection : ∀ key v, t.Selection v c key (t.populateChoice c key v)
  unmatched : ∀ key v, (∀ w ∈ c.variants, t.admits w.plan v = false) → t.populateChoice c key v =
    (t.newChoice c, some (.noVariant key (c.variants.map (·.label)) v.kind))
  rejected : ∀ key v i w f, t.FirstToSuit c v i w → t.convert w.plan (some w.label) v = .error f →
    t.populateChoice c key v = (t.newChoice c, some f)
  empty : (t.newChoice c).engaged = []

theorem selects (t : Table) (c : ChoicesPlan) : t.Selects c where
  selection key v := selection_populateChoice (p := .inline (.choices c)) (by rw [shape]) key v
  unmatched key _ h := populateChoice_of_unmatched h key
  rejected key _ _ _ _ h hf := populateChoice_of_error h hf key
  empty := engaged_newChoice_eq_nil t c

end Table

/-- Reading into a choice of a type goes by its plan (`Table.Selects`), whatever the choice holds.
-/
structure Codec.Selects (c : Codec) : Prop where
  plans : ∀ plan, c.table.Selects plan
  types : ∀ name t, c.choices name = .ok t → t.operations.has .populate = true → ∀ v out,
    t.populate v out = c.outcome (c.table.populateChoice t.plan none v)

theorem Codec.selects_first (c : Codec) : c.Selects where
  plans := c.table.selects
  types name t ht hp v out := by
    obtain ⟨rfl, -⟩ := shape_of_choices ht
    rw [ChoicesType.populate_eq, ChoicesType.require, require_eq_ok hp]
    rfl

end Interchange
