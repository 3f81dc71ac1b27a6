import Interchange.Proofs.Admission

/-! # The choices that are visited while data is written

Data of the right shape (`Shaped`) can be refused for one reason only, that a choice has not settled
on one variant, and it is the first such choice in the order of writing that is reported
(`decides_serialize`). The choices and their order are those of `Visits`.
-/

namespace Interchange

open Plan

/-- A choice that is met while data is written, with the path that leads to it: items, properties,
extra properties behind them, and variants are counted in the order in which they are written. -/
structure Visit where
  position : List Nat
  plan : ChoicesPlan
  place : String
  choice : Choice

namespace Visit

variable {V W : Visit → Prop} {v w : Visit} {i j : Nat}

def Settled (v : Visit) : Prop := v.choice.engaged.length = 1

/-- What is said of a choice that has not settled, the error of `serializeChoice`. -/
def error (v : Visit) : InstanceError := .unsettled v.plan.name v.place v.choice.engaged.length

/-- The same visit, seen from the whole of which it visits a part. -/
def under (i : Nat) (v : Visit) : Visit := { v with position := i :: v.position }

theorem under_inj (h : (v.under i).position = (w.under j).position) :
    i = j ∧ v.position = w.position :=
  List.cons.inj h

theorem position_under_lt (h : i < j) : (v.under i).position < (w.under j).position :=
  List.cons_lt_cons_iff.mpr (.inl h)

/-- The visits to the part at the position `i`, seen from the whole (`under`). -/
def Below (i : Nat) (V : Visit → Prop) (v : Visit) : Prop := ∃ u, V u ∧ v = u.under i

/-- The visits to a list of parts, the first of which is at the position `i`. -/
def Among {α : Type} (i : Nat) (as : List α) (U : Nat → α → Visit → Prop) (v : Visit) : Prop :=
  ∃ j a, as[j]? = some a ∧ Below (i + j) (U (i + j) a) v

theorem among_nil {α : Type} {U : Nat → α → Visit → Prop} : ¬ Among i [] U v := by
  rintro ⟨j, a, ha, -⟩
  cases ha

theorem among_cons_iff {α : Type} {a : α} {as : List α} {U : Nat → α → Visit → Prop} :
    Among i (a :: as) U v ↔ Below i (U i a) v ∨ Among (i + 1) as U v := by
  constructor
  · rintro ⟨j, b, hb, hv⟩
    cases j with
    | zero =>
      cases hb
      exact .inl hv
    | succ j => exact .inr ⟨j, b, hb, by rwa [Nat.add_right_comm i 1 j]⟩
  · rintro (hv | ⟨j, b, hb, hv⟩)
    · exact ⟨0, a, rfl, hv⟩
    · exact ⟨j + 1, b, hb, by rwa [Nat.add_right_comm i 1 j] at hv⟩

/-- Parts are visited before those that follow the list. -/
theorem Among.position_lt {α β : Type} {as : List α} {bs : List β} {U : Nat → α → Visit → Prop}
    {T : Nat → β → Visit → Prop} (hv : Among i as U v) (hw : Among (i + as.length) bs T w) :
    v.position < w.position := by
  obtain ⟨j, a, ha, v, -, rfl⟩ := hv
  obtain ⟨k, b, -, w, -, rfl⟩ := hw
  have hj : j < as.length := (List.getElem?_eq_some_iff.mp ha).1
  exact position_under_lt (by omega)

/-! ## The first choice that has not settled -/

/-- The first of some visits that finds a choice not `Settled`. -/
structure First (V : Visit → Prop) (v : Visit) : Prop where
  visited : V v
  unsettled : ¬ v.Settled
  before : ∀ w, V w → w.position < v.position → w.Settled

theorem First.under (h : First V v) (i : Nat) : First (Below i V) (v.under i) where
  visited := ⟨v, h.visited, rfl⟩
  unsettled := h.unsettled
  before := by
    rintro _ ⟨w, hw, rfl⟩ hlt
    have hlt := (List.cons_lt_cons_iff.mp hlt).resolve_left (Nat.lt_irrefl i)
    exact h.before w hw hlt.2

/-- A result that is an error if and only if some visit finds a choice not settled, and then the
error of the `First` such visit. -/
def Decides (V : Visit → Prop) {α : Type} : Except InstanceError α → Prop
  | .ok _ => ∀ v, V v → v.Settled
  | .error e => ∃ v, First V v ∧ e = v.error

namespace Decides

variable {α β : Type} {r : Except InstanceError α}

theorem of_iff (h : Decides V r) (hvw : ∀ v, V v ↔ W v) : Decides W r := by
  obtain rfl : V = W := funext fun v => propext (hvw v)
  exact h

theorem map (h : Decides V r) (f : α → β) : Decides V (r.map f) := by
  cases r with
  | ok a => exact h
  | error e => exact h

theorem under (h : Decides V r) (i : Nat) : Decides (Below i V) r := by
  cases r with
  | ok a =>
    rintro _ ⟨v, hv, rfl⟩
    exact h v hv
  | error e =>
    obtain ⟨v, hv, rfl⟩ := h
    exact ⟨v.under i, hv.under i, rfl⟩

/-- Two steps, of which the second makes the later visits. -/
theorem bind {f : α → Except InstanceError β} (hr : Decides V r) (hf : ∀ a, Decides W (f a))
    (hlt : ∀ v w, V v → W w → v.position < w.position) : Decides (fun v => V v ∨ W v) (r >>= f) := by
  cases r with
  | ok a =>
    have hf := hf a
    change Decides _ (f a)
    cases hb : f a with
    | ok b =>
      rw [hb] at hf
      rintro v (hv | hv)
      · exact hr v hv
      · exact hf v hv
    | error e =>
      rw [hb] at hf
      obtain ⟨v, hv, rfl⟩ := hf
      refine ⟨v, ⟨.inr hv.visited, hv.unsettled, ?_⟩, rfl⟩
      rintro w (hw | hw) hwv
      · exact hr w hw
      · exact hv.before w hw hwv
  | error e =>
    obtain ⟨v, hv, rfl⟩ := hr
    refine ⟨v, ⟨.inl hv.visited, hv.unsettled, ?_⟩, rfl⟩
    rintro w (hw | hw) hwv
    · exact hv.before w hw hwv
    · exact absurd (hlt v w hv.visited hw) (List.lt_asymm hwv)

variable {a : α} {as : List α} {U : Nat → α → Visit → Prop}

theorem among_nil (b : β) : Decides (Among i [] U) (.ok b) :=
  fun _ hv => absurd hv Visit.among_nil

/-- One round of a loop over parts, such as that of `serializeItems`. -/
theorem among_cons {γ : Type} {r : Except InstanceError β} {f : β → Except InstanceError γ}
    (hr : Decides (U i a) r) (hf : ∀ b, Decides (Among (i + 1) as U) (f b)) :
    Decides (Among i (a :: as) U) (r >>= f) := by
  refine ((hr.under i).bind hf ?_).of_iff fun v => among_cons_iff.symm
  rintro _ _ ⟨v, -, rfl⟩ ⟨j, b, -, w, -, rfl⟩
  exact position_under_lt (by omega)

/-- One round of a loop over parts that leaves a part out, as `serializeFields` does. -/
theorem among_skip {r : Except InstanceError β} (ha : ∀ v, ¬ U i a v)
    (hr : Decides (Among (i + 1) as U) r) : Decides (Among i (a :: as) U) r := by
  refine hr.of_iff fun v => ?_
  rw [among_cons_iff]
  refine ⟨.inr, fun hv => hv.resolve_left ?_⟩
  rintro ⟨u, hu, -⟩
  exact ha u hu

/-! ## What the result tells -/

theorem ne_mismatch (h : Decides V r) (place expected found : String) :
    r ≠ .error (.mismatch place expected found) := by
  rintro rfl
  obtain ⟨v, -, he⟩ := h
  cases he

theorem exists_eq_ok_iff (h : Decides V r) : (∃ a, r = .ok a) ↔ ∀ v, V v → v.Settled := by
  cases r with
  | ok a => exact ⟨fun _ => h, fun _ => ⟨a, rfl⟩⟩
  | error e =>
    obtain ⟨v, hv, -⟩ := h
    refine ⟨fun ha => ?_, fun hV => absurd (hV v hv.visited) hv.unsettled⟩
    obtain ⟨a, ha⟩ := ha
    cases ha

theorem eq_error_iff (h : Decides V r)
    (hunique : ∀ v w, V v → V w → v.position = w.position → v = w) {e : InstanceError} :
    r = .error e ↔ ∃ v, First V v ∧ e = v.error := by
  cases r with
  | ok a =>
    constructor
    · intro he
      cases he
    · rintro ⟨v, hv, -⟩
      exact absurd (h v hv.visited) hv.unsettled
  | error e' =>
    obtain ⟨v, hv, rfl⟩ := h
    rw [Except.error.injEq]
    refine ⟨fun he => ⟨v, hv, he.symm⟩, fun hw => ?_⟩
    obtain ⟨w, hw, rfl⟩ := hw
    have hvw : ¬ v.position < w.position := fun hlt => hv.unsettled (hw.before v hv.visited hlt)
    have hwv : ¬ w.position < v.position := fun hlt => hw.unsettled (hv.before w hw.visited hlt)
    rw [hunique v w hv.visited hw.visited (List.le_antisymm hwv hvw)]

end Decides

end Visit

open Visit

namespace Table

variable {t : Table} {p items a : Plan} {o : ObjectPlan} {c : ChoicesPlan} {x : Object} {y : Choice}
  {place : String} {v w : Visit}

/-- The choices that are visited: the data itself, and those in items of arrays, in properties that
are required or have content, in typed extra properties and in slots with content, at any depth. -/
inductive Visits (t : Table) : Plan → Data → String → Visit → Prop
  | here {p : Plan} {c : ChoicesPlan} {y : Choice} {place : String} (hs : t.shape p = .choices c) :
    Visits t p (.choice y) place ⟨[], c, place, y⟩
  | item {p items : Plan} {xs : List Data} {i : Nat} {z : Data} {place : String} {v : Visit}
      (hs : t.shape p = .array items) (hz : xs[i]? = some z)
      (hv : Visits t items z (itemPlace place i) v) : Visits t p (.array xs) place (v.under i)
  | field {p : Plan} {o : ObjectPlan} {x : Object} {i : Nat} {q : PropertyPlan} {z : Data}
      {place : String} {v : Visit} (hs : t.shape p = .object o) (hq : o.properties[i]? = some q)
      (hz : x.get? q.name = some z) (hw : q.optional = false ∨ Data.engaged (some z) = true)
      (hv : Visits t q.plan z (fieldPlace place q.name) v) : Visits t p (.object x) place (v.under i)
  | extra {p a : Plan} {o : ObjectPlan} {x : Object} {d : Dict Data} {i : Nat} {e : String × Data}
      {place : String} {v : Visit} (hs : t.shape p = .object o) (ha : o.additional = some a)
      (hx : x.extras = .typed d) (he : d.entries[i]? = some e)
      (hv : Visits t a e.2 (fieldPlace place e.1) v) :
      Visits t p (.object x) place (v.under (o.properties.length + i))
  | slot {p : Plan} {c : ChoicesPlan} {y : Choice} {i : Nat} {w : VariantPlan} {z : Data}
      {place : String} {v : Visit} (hs : t.shape p = .choices c) (hw : c.variants[i]? = some w)
      (hz : y.get? i = some z) (he : Data.engaged (some z) = true)
      (hv : Visits t w.plan z (variantPlace place w.label) v) : Visits t p (.choice y) place (v.under i)

/-- Visits are told apart by their positions. -/
theorem Visits.eq_of_position {z : Data} (hv : t.Visits p z place v) (hw : t.Visits p z place w)
    (h : v.position = w.position) : v = w := by
  induction hv generalizing w with
  | here hs =>
    cases hw with
    | here hs' =>
      cases hs.symm.trans hs'
      rfl
    | slot => cases h
  | item hs hz _ ih =>
    cases hw with
    | item hs' hz' hw =>
      obtain ⟨rfl, hp⟩ := under_inj h
      cases hs.symm.trans hs'
      cases hz.symm.trans hz'
      rw [ih hw hp]
  | field hs hq hz _ _ ih =>
    cases hw with
    | field hs' hq' hz' _ hw =>
      obtain ⟨rfl, hp⟩ := under_inj h
      cases hs.symm.trans hs'
      cases hq.symm.trans hq'
      cases hz.symm.trans hz'
      rw [ih hw hp]
    | extra hs' ha' hx' he' hw =>
      cases hs.symm.trans hs'
      have hi := (List.getElem?_eq_some_iff.mp hq).1
      have := (under_inj h).1
      omega
  | extra hs ha hx he _ ih =>
    cases hw with
    | field hs' hq' hz' _ hw =>
      cases hs.symm.trans hs'
      have hi := (List.getElem?_eq_some_iff.mp hq').1
      have := (under_inj h).1
      omega
    | extra hs' ha' hx' he' hw =>
      cases hs.symm.trans hs'
      obtain ⟨hi, hp⟩ := under_inj h
      obtain rfl := Nat.add_left_cancel hi
      cases ha.symm.trans ha'
      cases hx.symm.trans hx'
      cases he.symm.trans he'
      rw [ih hw hp]
  | slot hs hu hz _ _ ih =>
    cases hw with
    | here => cases h
    | slot hs' hu' hz' _ hw =>
      obtain ⟨rfl, hp⟩ := under_inj h
      cases hs.symm.trans hs'
      cases hu.symm.trans hu'
      cases hz.symm.trans hz'
      rw [ih hw hp]

/-! ## The visits of each shape -/

theorem not_visits_of_holdsLeaf {z : Data} (h : (t.shape p).holdsLeaf z = true) :
    ¬ t.Visits p z place v := by
  intro hv
  cases hv with
  | here hs | item hs | field hs | extra hs | slot hs => simp [hs, ShapeOf.holdsLeaf] at h

/-- The visits to a property, which there are none of if `serializeFields` leaves it out. -/
def VisitsField (t : Table) (x : Object) (place : String) (q : PropertyPlan) (v : Visit) : Prop :=
  ∃ z, x.get? q.name = some z ∧ (q.optional = false ∨ Data.engaged (some z) = true) ∧
    t.Visits q.plan z (fieldPlace place q.name) v

theorem visits_array_iff {xs : List Data} (hs : t.shape p = .array items) :
    t.Visits p (.array xs) place v ↔
      Among 0 xs (fun i z => t.Visits items z (itemPlace place i)) v := by
  constructor
  · intro h
    cases h with
    | item hs' hz hv =>
      cases hs.symm.trans hs'
      exact ⟨_, _, hz, _, by rwa [Nat.zero_add], by rw [Nat.zero_add]⟩
  · rintro ⟨i, z, hz, v, hv, rfl⟩
    rw [Nat.zero_add] at hv ⊢
    exact .item hs hz hv

theorem visits_object_iff (hs : t.shape p = .object o) :
    t.Visits p (.object x) place v ↔
      Among 0 o.properties (fun _ => t.VisitsField x place) v ∨
      ∃ a d, o.additional = some a ∧ x.extras = .typed d ∧
        Among o.properties.length d.entries (fun _ e => t.Visits a e.2 (fieldPlace place e.1)) v := by
  constructor
  · intro h
    cases h with
    | field hs' hq hz hw hv =>
      cases hs.symm.trans hs'
      exact .inl ⟨_, _, hq, _, ⟨_, hz, hw, hv⟩, by rw [Nat.zero_add]⟩
    | extra hs' ha hx he hv =>
      cases hs.symm.trans hs'
      exact .inr ⟨_, _, ha, hx, _, _, he, _, hv, rfl⟩
  · rintro (⟨i, q, hq, v, ⟨z, hz, hw, hv⟩, rfl⟩ | ⟨a, d, ha, hx, i, e, he, v, hv, rfl⟩)
    · rw [Nat.zero_add]
      exact .field hs hq hz hw hv
    · exact .extra hs ha hx he hv

/-! ## Data of the shape of a plan -/

/-- Data that has the shape of a plan. Objects have the required fields, and choices have no slots
without a variant. What is present has the shape of its plan. Unlike data that `Conforms`, such data
may have other fields, and may lack slots of enumerations. -/
inductive Shaped (t : Table) : Plan → Data → Prop
  | leaf {p : Plan} {z : Data} (h : (t.shape p).holdsLeaf z = true) : Shaped t p z
  | array {p items : Plan} {xs : List Data} (hs : t.shape p = .array items)
      (content : ∀ z ∈ xs, Shaped t items z) : Shaped t p (.array xs)
  | object {p : Plan} {o : ObjectPlan} {x : Object} (hs : t.shape p = .object o)
      (required : ∀ q ∈ o.properties, q.optional = false → x.get? q.name ≠ none)
      (content : ∀ q ∈ o.properties, ∀ z, x.get? q.name = some z → Shaped t q.plan z)
      (extras : ∀ d, x.extras = .typed d → o.additional ≠ none)
      (typed : ∀ a d, o.additional = some a → x.extras = .typed d →
        ∀ e ∈ d.entries, Shaped t a e.2) : Shaped t p (.object x)
  | choice {p : Plan} {c : ChoicesPlan} {y : Choice} (hs : t.shape p = .choices c)
      (slots : y.slots.length ≤ c.variants.length)
      (content : ∀ i w z, c.variants[i]? = some w → y.get? i = some z → Shaped t w.plan z) :
      Shaped t p (.choice y)

theorem Conforms.shaped {z : Data} (h : t.Conforms p z) : t.Shaped p z := by
  induction h with
  | leaf h => exact .leaf h
  | array hs _ ih => exact .array hs ih
  | object hs _ present _ extras _ ih ihx =>
    refine .object hs (fun q hq ho => present q hq (.inl ho)) ih (fun d hd ha => ?_) ihx
    rw [hd, holdsExtras, ha] at extras
    cases extras
  | choice hs slots _ _ ih => exact .choice hs slots.le ih

/-! ## Writing visits the choices in order -/

theorem decides_serializeItems {xs : List Data}
    (h : ∀ z ∈ xs, ∀ place, Decides (t.Visits items z place) (t.serialize items z place))
    (place : String) (i : Nat) :
    Decides (Among i xs fun i z => t.Visits items z (itemPlace place i))
      (t.serializeItems items place i xs) := by
  induction xs generalizing i with
  | nil =>
    rw [serializeItems]
    exact .among_nil []
  | cons z xs ih =>
    rw [List.forall_mem_cons] at h
    rw [serializeItems]
    exact .among_cons (h.1 _) fun _ => (ih h.2 (i + 1)).map _

theorem decides_serializeFields {ps : List PropertyPlan}
    (hr : ∀ q ∈ ps, q.optional = false → x.get? q.name ≠ none)
    (h : ∀ q ∈ ps, ∀ z, x.get? q.name = some z →
      ∀ place, Decides (t.Visits q.plan z place) (t.serialize q.plan z place))
    (place : String) (i : Nat) :
    Decides (Among i ps fun _ => t.VisitsField x place) (t.serializeFields ps x place) := by
  induction ps generalizing i with
  | nil =>
    rw [serializeFields]
    exact .among_nil []
  | cons q ps ih =>
    rw [List.forall_mem_cons] at hr h
    have ih := ih hr.2 h.2 (i + 1)
    rw [serializeFields]
    split
    · rename_i hskip
      rw [Bool.and_eq_true, Bool.not_eq_true'] at hskip
      refine .among_skip ?_ ih
      rintro v ⟨z, hz, hw, -⟩
      rw [hz] at hskip
      simp [hskip] at hw
    · rename_i hwrite
      split
      · rename_i hnone
        have ho : q.optional ≠ false := fun ho => hr.1 ho hnone
        simp [hnone, Data.engaged, ho] at hwrite
      · rename_i z hz
        refine .among_cons ((h.1 z hz _).of_iff fun v => ?_) fun _ => ih.map _
        refine ⟨fun hv => ⟨z, hz, ?_, hv⟩, ?_⟩
        · rw [hz] at hwrite
          cases ho : q.optional with
          | false => exact .inl rfl
          | true => exact .inr (by simpa [ho] using hwrite)
        · rintro ⟨z', hz', -, hv⟩
          cases hz.symm.trans hz'
          exact hv

theorem decides_serializeExtras {es : List (String × Data)}
    (h : ∀ e ∈ es, ∀ place, Decides (t.Visits a e.2 place) (t.serialize a e.2 place))
    (place : String) (i : Nat) :
    Decides (Among i es fun _ e => t.Visits a e.2 (fieldPlace place e.1))
      (t.serializeExtras a es place) := by
  induction es generalizing i with
  | nil =>
    rw [serializeExtras]
    exact .among_nil []
  | cons e es ih =>
    rw [List.forall_mem_cons] at h
    rw [serializeExtras]
    exact .among_cons (h.1 _) fun _ => (ih h.2 (i + 1)).map _

theorem decides_serializeObject (hs : t.shape p = .object o)
    (hr : ∀ q ∈ o.properties, q.optional = false → x.get? q.name ≠ none)
    (hf : ∀ q ∈ o.properties, ∀ z, x.get? q.name = some z →
      ∀ place, Decides (t.Visits q.plan z place) (t.serialize q.plan z place))
    (ha : ∀ d, x.extras = .typed d → o.additional ≠ none)
    (he : ∀ a d, o.additional = some a → x.extras = .typed d →
      ∀ e ∈ d.entries, ∀ place, Decides (t.Visits a e.2 place) (t.serialize a e.2 place))
    (place : String) :
    Decides (t.Visits p (.object x) place) (t.serializeObject o x place) := by
  have hfields := decides_serializeFields hr hf place 0
  have hiff (v : Visit) : t.Visits p (.object x) place v ↔ _ := visits_object_iff hs
  rw [serializeObject]
  split
  · rename_i hx
    refine (hfields.map _).of_iff fun v => ?_
    rw [hiff v]
    simp [hx]
  · rename_i d hx
    refine (hfields.map _).of_iff fun v => ?_
    rw [hiff v]
    simp [hx]
  · rename_i d hx
    cases hadd : o.additional with
    | none => exact absurd hadd (ha d hx)
    | some a =>
      have hextras := decides_serializeExtras (he a d hadd hx) place o.properties.length
      refine (hfields.bind (fun _ => hextras.map _) fun v w hv hw => ?_).of_iff fun v => ?_
      · exact hv.position_lt (by rwa [Nat.zero_add])
      · rw [hiff v]
        simp [hadd, hx]

/-- A choice that has settled visits itself and what it has settled on. -/
theorem visits_choice_iff (hs : t.shape p = .choices c) {i : Nat} (hi : y.engaged = [i])
    {u : VariantPlan} (hu : c.variants[i]? = some u) {z : Data} (hz : y.get? i = some z) :
    t.Visits p (.choice y) place v ↔
      v = ⟨[], c, place, y⟩ ∨ Below i (t.Visits u.plan z (variantPlace place u.label)) v := by
  constructor
  · intro h
    cases h with
    | here hs' =>
      cases hs.symm.trans hs'
      exact .inl rfl
    | slot hs' hu' hz' he hv =>
      cases hs.symm.trans hs'
      have hmem := Data.mem_engaged_iff.mpr (hz' ▸ he)
      rw [hi, List.mem_singleton] at hmem
      subst hmem
      cases hu.symm.trans hu'
      cases hz.symm.trans hz'
      exact .inr ⟨_, hv, rfl⟩
  · rintro (rfl | ⟨v, hv, rfl⟩)
    · exact .here hs
    · exact .slot hs hu hz (hz ▸ Data.engaged_of_engaged_eq hi) hv

theorem decides_serializeChoice (hs : t.shape p = .choices c)
    (hslots : y.slots.length ≤ c.variants.length)
    (h : ∀ i u z, c.variants[i]? = some u → y.get? i = some z →
      ∀ place, Decides (t.Visits u.plan z place) (t.serialize u.plan z place)) (place : String) :
    Decides (t.Visits p (.choice y) place) (t.serializeChoice c y place) := by
  rw [serializeChoice]
  split
  · rename_i i hi
    have hengaged := Data.engaged_of_engaged_eq hi
    split
    · rename_i hu
      have hlt := Data.lt_of_engaged hengaged
      have hle := List.getElem?_eq_none_iff.mp hu
      omega
    · rename_i u hu
      split
      · rename_i hz
        rw [hz] at hengaged
        cases hengaged
      · rename_i z hz
        have hsettled : Decides (fun v => v = ⟨[], c, place, y⟩) (.ok ()) := by
          rintro _ rfl
          exact congrArg List.length hi
        refine (hsettled.bind (fun _ => (h i u z hu hz _).under i) ?_).of_iff fun v =>
          (visits_choice_iff hs hi hu hz).symm
        rintro _ _ rfl ⟨w, -, rfl⟩
        exact List.nil_lt_cons i w.position
  · rename_i hi
    refine ⟨⟨[], c, place, y⟩, ⟨.here hs, fun hone => ?_, fun w _ hlt => ?_⟩, rfl⟩
    · obtain ⟨i, hone⟩ := List.length_eq_one_iff.mp hone
      exact hi i hone
    · exact absurd hlt (List.not_lt_nil _)

/-- Writing data that is `Shaped` fails at the first choice that has not settled. -/
theorem decides_serialize {z : Data} (h : t.Shaped p z) (place : String) :
    Decides (t.Visits p z place) (t.serialize p z place) := by
  induction h generalizing place with
  | leaf h =>
    obtain ⟨hl, v, hv⟩ := exists_writeLeaf? h
    rw [serialize_eq_ok_iff.mpr ((write?_leaf hl _).trans hv)]
    exact fun w hw => absurd hw (not_visits_of_holdsLeaf h)
  | array hs _ ih =>
    rw [serialize.eq_def, hs]
    exact ((decides_serializeItems ih place 0).map _).of_iff fun v => (visits_array_iff hs).symm
  | object hs required _ extras _ ih ihx =>
    rw [serialize.eq_def, hs]
    exact (decides_serializeObject hs required ih extras ihx place).map _
  | choice hs slots _ ih =>
    rw [serialize.eq_def, hs]
    exact decides_serializeChoice hs slots ih place

/-- What becomes of data that is written: it is never found to have another shape than its plan; it
is written if and only if all choices that it `Visits` have settled on one variant; and otherwise
the first that has not, in the order of writing, is reported with its name and how many variants it
has. -/
structure RefusesUnsettled (t : Table) (p : Plan) (z : Data) (place : String) : Prop where
  shaped : ∀ part expected found, t.serialize p z place ≠ .error (.mismatch part expected found)
  settled : (∃ v, t.serialize p z place = .ok v) ↔ ∀ v, t.Visits p z place v → v.Settled
  refused : ∀ e, t.serialize p z place = .error e ↔
    ∃ v, First (t.Visits p z place) v ∧
      e = .unsettled v.plan.name v.place v.choice.engaged.length

theorem refusesUnsettled_of_shaped {z : Data} (h : t.Shaped p z) (place : String) :
    t.RefusesUnsettled p z place where
  shaped := (decides_serialize h place).ne_mismatch
  settled := (decides_serialize h place).exists_eq_ok_iff
  refused _ := (decides_serialize h place).eq_error_iff fun _ _ hv hw => hv.eq_of_position hw

end Table

namespace Gauge

/-- A reading with a number, with a text, with both or with neither. -/
def filled (d : Option Double) (s : Option String) : Choice := ⟨[d.map .double, s.map .string]⟩

variable {t : Table} {p : Plan}

theorem conforms_filled (hs : t.shape p = .choices plan) (d : Option Double) (s : Option String) :
    t.Conforms p (.choice (filled d s)) := by
  have hdouble : t.shape (.inline .double) = .double := by rw [Table.shape]
  have hstring : t.shape (.inline .string) = .string := by rw [Table.shape]
  refine .choice hs rfl (fun i w hw he => ?_) fun i w z hw hz => ?_
  · obtain ⟨e, he⟩ := Table.isEnum_iff.mp he
    rcases i with _ | _ | i <;> cases hw
    · cases hdouble.symm.trans he
    · cases hstring.symm.trans he
  · rcases i with _ | _ | i <;> cases hw
    · obtain ⟨d, -, rfl⟩ := Option.map_eq_some_iff.mp hz
      exact .leaf (by rw [hdouble]; rfl)
    · obtain ⟨s, -, rfl⟩ := Option.map_eq_some_iff.mp hz
      exact .leaf (by rw [hstring]; rfl)

end Gauge

/-- The first reading has settled. The second, which has no variant, is reported, and the third,
which has two, is not. -/
theorem Table.refusesUnsettled_of_shaped_gauge :
    ∃ c p z, Codec.generate Gauge.registry {} "gauge" = .ok c ∧ c.table.Conforms p z ∧
      c.table.serialize p z "readings" = .error (.unsettled "Reading" "readings[1]" 0) := by
  obtain ⟨c, hgen, hc⟩ := Gauge.exists_compiled
  obtain ⟨t, ht, rfl, -, hplan⟩ := Gauge.exists_reading hc
  have hs : t.table.shape (.named t.id) = .choices Gauge.plan := by
    rw [← hplan]
    exact (Codec.shape_of_choices ht).2
  have hitems : t.table.shape (.inline (.array (.named t.id))) = .array (.named t.id) := by
    rw [Table.shape]
  let readings : List Choice := [Gauge.filled (some (.ofInt 5)) none, Gauge.filled none none,
    Gauge.filled (some (.ofInt 5)) (some "5")]
  have hconforms : t.table.Conforms (.inline (.array (.named t.id)))
      (.array (readings.map .choice)) := by
    refine .array hitems fun z hz => ?_
    simp only [readings, List.map_cons, List.map_nil, List.mem_cons, List.not_mem_nil, or_false] at hz
    rcases hz with rfl | rfl | rfl <;> exact Gauge.conforms_filled hs _ _
  refine ⟨t.codec, _, _, hgen, hconforms, ?_⟩
  refine ((refusesUnsettled_of_shaped hconforms.shaped "readings").refused _).mpr
    ⟨Visit.under 1 ⟨[], Gauge.plan, _, _⟩, ⟨.item hitems rfl (.here hs), ?_, ?_⟩, ?_⟩
  · exact Nat.zero_ne_one
  · intro v hv hlt
    cases hv with
    | @item _ _ _ i _ _ v hs' hz hv =>
      cases hitems.symm.trans hs'
      obtain rfl : i = 0 := by
        rcases List.cons_lt_cons_iff.mp hlt with hi | ⟨-, hi⟩
        · omega
        · exact absurd hi (List.not_lt_nil _)
      cases hz
      rcases (visits_choice_iff hs rfl rfl rfl).mp hv with rfl | ⟨v, hv, -⟩
      · rfl
      · exact absurd hv (not_visits_of_holdsLeaf (by rw [Table.shape]; rfl))
  · rfl

end Interchange
