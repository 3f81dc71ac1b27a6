import Interchange.Proofs.Openness
import Interchange.Proofs.Selection

/-! # Values that a plan reads although they do not suit it

Which variant of a choice is asked for a value goes by the kind of the value alone (`admits`), and
doubles suit doubles only; but a double is read from an integer, too (`Widens`). There is no other
such case. So a choice finds a variant for each value that one of its variants reads, unless the
value is an integer and only doubles would read it (`OnlyWidens`): then it refuses the value
outright.
-/

namespace Interchange

open Plan Populate Schema

/-- What `readLeaf?` reads suits the shape, but for an integer that is read as a double. -/
theorem Plan.ShapeOf.takes_eq_false_iff {α : Type} {s : ShapeOf α} {v : Value} {x : Data}
    (h : s.readLeaf? v = some x) : s.takes v.kind = false ↔ s = .double ∧ v.kind = .int := by
  cases s with
  | any => simp [takes]
  | function b => cases b <;> cases v <;> simp [readLeaf?, Value.string?, emptyDict?, takes, Value.kind] at h ⊢
  | array | object | choices => cases h
  | boolean | integer | int64 | double | string | binary | enumeration =>
    cases v <;> simp [readLeaf?, Value.bool?, Value.int?, int64?, Value.double?, Value.string?,
      Value.binary?, EnumPlan.member?, takes, Value.kind] at h ⊢

namespace Table

variable {t : Table} {p : Plan} {c : ChoicesPlan} {key : Option String} {v : Value} {x : Data}

/-- An integer that is to be read as a double. -/
def Widens (t : Table) (p : Plan) (v : Value) : Prop := t.shape p = .double ∧ v.kind = .int

/-- The plan reads the value by `convert`, under some key. -/
def Reads (t : Table) (p : Plan) (v : Value) : Prop := ∃ key x, t.convert p key v = .ok x

theorem admits_of_readChoice? {y : Choice} (h : t.readChoice? c v = some y) :
    (c.variants.any fun w => t.admits w.plan v) = true := by
  obtain ⟨i, w, -, hp, -, -⟩ := exists_of_readChoice? h
  exact List.any_eq_true.mpr ⟨w, mem_of_pick hp, admits_of_pick hp⟩

theorem not_widens_of_shape {s : Shape} (h : t.shape p = s) (hs : s ≠ .double) : ¬t.Widens p v := by
  intro hw
  exact hs (h.symm.trans hw.1)

/-- Whatever is read suits its plan, but for a value that the plan `Widens`. -/
theorem admits_eq_false_iff_widens (h : t.read? p v = some x) :
    t.admits p v = false ↔ t.Widens p v := by
  cases readsAs_of_read? h with
  | leaf hs hx =>
    have hchoices : ∀ c, t.shape p ≠ .choices c := by
      intro c hc
      rw [hc] at hs
      cases hs
    rw [admits_of_not_choices hchoices]
    exact ShapeOf.takes_eq_false_iff hx
  | array hs hx =>
    rw [admits_of_not_choices (by simp [hs]), hs]
    exact iff_of_false (by simp [ShapeOf.takes, Value.kind]) (not_widens_of_shape hs (by simp))
  | object hs hx =>
    rw [admits_of_not_choices (by simp [hs]), hs]
    exact iff_of_false (by simp [ShapeOf.takes, Value.kind]) (not_widens_of_shape hs (by simp))
  | choice hs hx =>
    rw [admits_of_choices hs, admits_of_readChoice? hx]
    exact iff_of_false (by simp) (not_widens_of_shape hs (by simp))

/-- A plan that `admits` an integer reads it, whatever the integer. -/
theorem exists_read?_of_admits (h : t.admits p v = true) (hv : v.kind = .int) :
    ∃ x, t.read? p v = some x := by
  induction p, v using read_induction t with
  | step p v _ ihw =>
    by_cases hc : ∃ c, t.shape p = .choices c
    · obtain ⟨c, hs⟩ := hc
      rw [admits_of_choices hs, List.any_eq_true] at h
      obtain ⟨u, hu, hadmits⟩ := h
      -- The variant that is picked need not be `u`, but it suits the integer, too.
      cases hp : t.pick v 0 c.variants with
      | none =>
        rw [pick_eq_none_iff.mp hp u hu] at hadmits
        cases hadmits
      | some r =>
        obtain ⟨i, w⟩ := r
        obtain ⟨y, hy⟩ := ihw c hs w (mem_of_pick hp) (admits_of_pick hp) hv
        rw [read?_choices hs, readChoice?, hp, Option.bind_some, hy]
        exact ⟨_, rfl⟩
    · have hchoices : ∀ c, t.shape p ≠ .choices c := fun c hs => hc ⟨c, hs⟩
      rw [admits_of_not_choices hchoices, hv] at h
      cases v with
      | int n =>
        cases hs : t.shape p with
        | any | integer | int64 =>
          rw [read?_leaf (by rw [hs]; rfl), hs]
          exact ⟨_, rfl⟩
        | function b => cases b <;> simp [hs, ShapeOf.takes] at h
        | _ => simp [hs, ShapeOf.takes] at h
      | _ => cases hv

/-- Only doubles among the variants would read the value, which is an integer then. -/
def OnlyWidens (t : Table) (c : ChoicesPlan) (v : Value) : Prop :=
  ∀ w ∈ c.variants, t.Reads w.plan v → t.Widens w.plan v

theorem reads_iff : t.Reads p v ↔ ∃ x, t.read? p v = some x := by
  simp only [Reads, convert_eq_ok_iff, exists_const]

/-- An integer that only doubles would read suits no variant, by `admits_eq_false_iff_widens`. -/
theorem unmatched_of_onlyWidens (h : t.OnlyWidens c v) (hr : ∃ w ∈ c.variants, t.Reads w.plan v) :
    ∀ w ∈ c.variants, t.admits w.plan v = false := by
  obtain ⟨u, hu, hread⟩ := hr
  have hv := (h u hu hread).2
  intro w hw
  rw [← Bool.not_eq_true]
  intro hadmits
  obtain ⟨x, hx⟩ := exists_read?_of_admits hadmits hv
  have hwidens := h w hw (reads_iff.mpr ⟨x, hx⟩)
  rw [(admits_eq_false_iff_widens hx).mpr hwidens] at hadmits
  cases hadmits

/-- Any other value that some variant reads suits a variant. -/
theorem exists_firstToSuit {u : VariantPlan} (hu : u ∈ c.variants) (hread : t.Reads u.plan v)
    (hwidens : ¬t.Widens u.plan v) : ∃ i w, t.FirstToSuit c v i w := by
  obtain ⟨x, hx⟩ := reads_iff.mp hread
  cases hp : t.pick v 0 c.variants with
  | none =>
    have hnone := pick_eq_none_iff.mp hp u hu
    exact absurd ((admits_eq_false_iff_widens hx).mp hnone) hwidens
  | some r => exact ⟨r.1, r.2, pick_eq_some_iff_firstToSuit.mp hp⟩

/-- What the look at kinds hides. A plan that reads a value suits it, unless it `Widens` it. A
choice one of whose variants reads a value asks a variant for it, and the answer is that variant's;
unless the choice `OnlyWidens` the value, which is refused for lack of a variant then. -/
structure HidesIntegers (t : Table) : Prop where
  plans : ∀ p key v x, t.convert p key v = .ok x → (t.admits p v = false ↔ t.Widens p v)
  found : ∀ c v, ∀ u ∈ c.variants, t.Reads u.plan v → ¬t.Widens u.plan v →
    ∃ i w, t.FirstToSuit c v i w ∧ ∀ key, t.convertChoice c key v =
      (t.convert w.plan (some w.label) v).map fun x => ⟨(t.newChoice c).slots.set i (some x)⟩
  hidden : ∀ c v, (∃ w ∈ c.variants, t.Reads w.plan v) → t.OnlyWidens c v → ∀ key,
    t.populateChoice c key v =
      (t.newChoice c, some (.noVariant key (c.variants.map (·.label)) v.kind))

/-- The look at kinds hides nothing but integers that are read as doubles. -/
theorem hidesIntegers (t : Table) : t.HidesIntegers where
  plans _ _ _ _ h := admits_eq_false_iff_widens (convert_eq_ok_iff.mp h)
  found _ _ _ hu hread hwidens := by
    obtain ⟨i, w, hfirst⟩ := exists_firstToSuit hu hread hwidens
    exact ⟨i, w, hfirst, convertChoice_of_firstToSuit hfirst⟩
  hidden _ _ hr h key := populateChoice_of_unmatched (unmatched_of_onlyWidens h hr) key

end Table

/-! ## A gauge

What it shows is a number or a text. -/

namespace Gauge

def reading : Ty :=
  ((Ty.ofKind (.choices [Ty.ofKind .double, Ty.ofKind .string])).named "Reading").withOrigin
    .jsonAndClient

def gauge : Namespace := (Namespace.empty "gauge").withType reading

def registry : Registry where
  namespaces := [gauge]
  distinct := by decide

theorem exists_compiled : ∃ c, Codec.generate registry {} "gauge" = .ok c ∧
    Codec.Compiled registry gauge c :=
  Codec.exists_compiled (Codec.exists_of_isOk (by decide +kernel)) rfl (by decide)

def plan : ChoicesPlan := ⟨"Reading", [⟨"double", .inline .double⟩, ⟨"string", .inline .string⟩]⟩

theorem exists_reading {c : Codec} (hc : Codec.Compiled registry gauge c) :
    ∃ t, c.choices "Reading" = .ok t ∧ t.codec = c ∧ t.operations.has .fromValue = true ∧
      t.plan = plan := by
  have he : ("Reading", reading) ∈ gauge.types.entries := List.mem_of_getElem? (i := 0) rfl
  obtain ⟨t, ht, hcodec, hops, hplan⟩ := hc.exists_choicesType rfl he
  refine ⟨t, ht, hcodec, ?_, ShapeOf.choices.inj (Plan.inline.inj hplan)⟩
  rw [hops]
  rfl

/-- The double of a reading takes the integer, but the reading is refused for lack of a variant. -/
theorem not_read_int : ∃ c t, Codec.generate registry {} "gauge" = .ok c ∧
    c.choices "Reading" = .ok t ∧
    (∃ w ∈ t.plan.variants,
      c.table.convert w.plan (some w.label) (.int 5) = .ok (.double (.ofInt 5)) ∧
      c.table.admits w.plan (.int 5) = false) ∧
    t.ofValue (.int 5) =
      .error (c.failed (.noVariant none ["double", "string"] .int)) := by
  obtain ⟨c, hgen, hc⟩ := exists_compiled
  obtain ⟨t, ht, rfl, hops, hplan⟩ := exists_reading hc
  have hdouble : t.table.shape (.inline .double) = .double := by rw [Table.shape]
  have hstring : t.table.shape (.inline .string) = .string := by rw [Table.shape]
  have hadmits : ∀ w ∈ t.plan.variants, t.table.admits w.plan (.int 5) = false := by
    rw [hplan]
    intro w hw
    rcases List.mem_pair.mp hw with rfl | rfl
    · rw [Table.admits_of_not_choices (by simp [hdouble]), hdouble]
      rfl
    · rw [Table.admits_of_not_choices (by simp [hstring]), hstring]
      rfl
  have hmem : (⟨"double", .inline .double⟩ : VariantPlan) ∈ t.plan.variants := by
    rw [hplan]
    exact List.mem_cons_self
  refine ⟨t.codec, t, hgen, ht, ⟨_, hmem, ?_, hadmits _ hmem⟩, ?_⟩
  · rw [Table.convert_eq_ok_iff]
    change t.table.read? _ _ = _
    rw [Table.read?_leaf (by rw [hdouble]; rfl), hdouble]
    rfl
  · have hrequire : t.require .fromValue = .ok () :=
      Codec.require_eq_ok hops t.name
    rw [ChoicesType.ofValue, hrequire, Table.populateChoice_of_unmatched hadmits, hplan]
    rfl

end Gauge

end Interchange
