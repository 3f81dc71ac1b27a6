import Interchange.Instance.Arguments
import Interchange.Proofs.Value

/-! # What values are read as

Reading is described without faults and without the instance that is written to: `read?` says what
data a value yields, and one equation for each shape says how (`read?_leaf`, `read?_array`,
`read?_object`, `read?_choices`). Proofs about reading go by `read_induction`.
-/

namespace Interchange

open Plan Populate

variable {α β ε ε' σ : Type}

/-! ## Results without their faults -/

@[simp] theorem toOption_ok (a : α) : (.ok a : Except ε α).toOption = some a := rfl

@[simp] theorem toOption_error (e : ε) : (.error e : Except ε α).toOption = none := rfl

@[simp] theorem toOption_map (x : Except ε α) (f : α → β) :
    (x.map f).toOption = x.toOption.map f := by
  cases x <;> rfl

@[simp] theorem toOption_mapError (x : Except ε α) (f : ε → ε') :
    (x.mapError f).toOption = x.toOption := by
  cases x <;> rfl

theorem map_mapError (x : Except ε α) (f : α → β) (g : ε → ε') :
    (x.mapError g).map f = (x.map f).mapError g := by
  cases x <;> rfl

theorem toOption_eq_some_iff {x : Except ε α} {a : α} : x.toOption = some a ↔ x = .ok a := by
  cases x <;> simp

theorem toOption_bind (x : Except ε α) (f : α → Except ε β) :
    (x >>= f).toOption = x.toOption.bind fun a => (f a).toOption := by
  cases x <;> rfl

/-- The state of a run that meets no fault; for such runs `Outcome.andThen` is a bind. -/
def Outcome.result? (r : Outcome σ) : Option σ := r.toExcept.toOption

@[simp] theorem Outcome.result?_none (s : σ) : Outcome.result? (s, none) = some s := rfl

@[simp] theorem Outcome.result?_some (s : σ) (f : Fault) : Outcome.result? (s, some f) = none := rfl

@[simp] theorem Outcome.result?_done (s : σ) : (Outcome.done s).result? = some s := rfl

theorem Outcome.result?_eq_some_iff {r : Outcome σ} {s : σ} : r.result? = some s ↔ r = (s, none) := by
  obtain ⟨s', f⟩ := r
  cases f <;> simp

theorem Outcome.result?_andThen (r : Outcome σ) (next : σ → Outcome σ) :
    (r.andThen next).result? = r.result?.bind fun s => (next s).result? := by
  obtain ⟨s, f⟩ := r
  cases f <;> rfl

/-! ## Shapes without parts -/

namespace Plan.ShapeOf

/-- Whether values of the shape are read as they stand. -/
def isLeaf : ShapeOf α → Bool
  | .array _ | .object _ | .choices _ => false
  | _ => true

/-- A function that cannot be written. `readLeaf?` reads the empty dictionary for it. -/
def isFunction : ShapeOf α → Bool
  | .function false => true
  | _ => false

theorem isFunction_iff {s : ShapeOf α} : s.isFunction = true ↔ s = .function false := by
  cases s with
  | function b => cases b <;> simp [isFunction]
  | _ => simp [isFunction]

end Plan.ShapeOf

/-- The member that a value names, by `EnumPlan.ofName`. -/
def Plan.EnumPlan.member? (e : EnumPlan) (v : Value) : Option EnumValue :=
  v.string?.bind fun s => if (e.ofName s).isNone then none else some (e.ofName s)

/-- What a value is read as by a shape without parts. -/
def Plan.ShapeOf.readLeaf? : ShapeOf α → Value → Option Data
  | .boolean, v => v.bool?.map .boolean
  | .integer, v => v.int?.map .integer
  | .int64, v => (int64? v).map .int64
  | .double, v => v.double?.map .double
  | .string, v | .function true, v => v.string?.map .string
  | .binary, v => v.binary?.map .binary
  | .any, v => some (.any v)
  | .function false, v => (emptyDict? v).map fun _ => .function (.dict ∅)
  | .enumeration e, v => (e.member? v).map .enumeration
  | .array _, _ | .object _, _ | .choices _, _ => none

theorem toOption_orMismatch (key : Option String) (expected : String) (v : Value) (o : Option α) :
    (orMismatch key expected v o).toOption = o := by
  cases o <;> rfl

theorem toOption_enumValue (e : EnumPlan) (key : Option String) (v : Value) :
    (enumValue e key v).toOption = e.member? v := by
  cases v with
  | string s =>
    simp only [enumValue, EnumPlan.member?, Value.string?, Option.bind_some]
    split <;> rfl
  | null | bool | int | double | binary | list | dict => rfl

theorem result?_enumItems (e : EnumPlan) (key : Option String) (i : Nat) (vs : List Value) :
    (enumItems e key i vs).result? = vs.mapM fun v => (e.member? v).map .enumeration := by
  induction vs generalizing i with
  | nil => rfl
  | cons v vs ih =>
    rw [List.mapM_cons, ← ih (i + 1), ← toOption_enumValue e none v, enumItems]
    cases enumValue e none v with
    | error f => rfl
    | ok m =>
      obtain ⟨xs, f⟩ := enumItems e key (i + 1) vs
      cases f <;> rfl

namespace Table

variable {t : Table} {p : Plan} {v : Value} {key : Option String}

/-! ## Reading -/

/-- What a value is read as by `convert`. The key is left out, see `toOption_convert`. -/
def read? (t : Table) (p : Plan) (v : Value) : Option Data := (t.convert p none v).toOption

theorem toOption_convert_leaf (h : (t.shape p).isLeaf = true) :
    (t.convert p key v).toOption = (t.shape p).readLeaf? v := by
  rw [convert]
  split <;> rename_i hs <;>
    simp [hs, ShapeOf.isLeaf, ShapeOf.readLeaf?, toOption_orMismatch, toOption_enumValue] at h ⊢

theorem toOption_convertItems (items : Plan) (i : Nat) (vs : List Value) :
    (t.convertItems items key i vs).toOption = vs.mapM (t.read? items) := by
  induction vs generalizing i with
  | nil =>
    rw [convertItems]
    rfl
  | cons v vs ih =>
    rw [convertItems, List.mapM_cons, read?]
    cases t.convert items none v with
    | error f => rfl
    | ok x =>
      simp only [toOption_map, toOption_ok, ih (i + 1)]
      cases vs.mapM (t.read? items) <;> rfl

theorem shape_of_enum? {q : Plan} {e : EnumPlan} (h : t.enum? q = some e) :
    t.shape q = .enumeration e := by
  unfold enum? at h
  split at h
  · cases h
    assumption
  · cases h

theorem enum?_of_shape {q : Plan} {e : EnumPlan} (h : t.shape q = .enumeration e) :
    t.enum? q = some e := by
  simp [enum?, h]

theorem isEnum_iff {q : Plan} : t.isEnum q = true ↔ ∃ e, t.shape q = .enumeration e := by
  rw [isEnum, Option.isSome_iff_exists]
  exact ⟨fun ⟨e, h⟩ => ⟨e, shape_of_enum? h⟩, fun ⟨e, h⟩ => ⟨e, enum?_of_shape h⟩⟩

theorem read?_leaf (h : (t.shape p).isLeaf = true) (v : Value) :
    t.read? p v = (t.shape p).readLeaf? v :=
  toOption_convert_leaf h

theorem result?_enumList {q : Plan} {e : EnumPlan} (h : t.shape q = .enumeration e) :
    (enumList e key v).result? = v.list?.bind fun vs => vs.mapM (t.read? q) := by
  have hq : t.read? q = fun v => (e.member? v).map .enumeration := by
    funext u
    rw [read?_leaf (by rw [h]; rfl), h]
    rfl
  cases v with
  | list vs =>
    rw [hq]
    exact result?_enumItems e key 0 vs
  | null | bool | int | double | string | binary | dict => rfl

/-- The two ways to read a list, by `enumList` and by `convertItems`, agree. -/
theorem toOption_convert_array {items : Plan} (h : t.shape p = .array items) :
    (t.convert p key v).toOption = v.list?.bind fun vs => (vs.mapM (t.read? items)).map .array := by
  rw [convert]
  split <;> rename_i hs <;> rw [h] at hs <;> cases hs
  split
  · rename_i e he
    have hr : (enumList e key v).toExcept.toOption = _ := result?_enumList (shape_of_enum? he)
    rw [toOption_map, hr]
    cases v <;> simp [Value.list?]
  · split
    · simp [toOption_convertItems, Value.list?]
    · rename_i hv
      cases v with
      | list vs => exact absurd rfl (hv vs)
      | null | bool | int | double | string | binary | dict => rfl

theorem read?_array {items : Plan} (h : t.shape p = .array items) (v : Value) :
    t.read? p v = v.list?.bind fun vs => (vs.mapM (t.read? items)).map .array :=
  toOption_convert_array h

/-! ## Keys -/

theorem convert_object {o : ObjectPlan} (h : t.shape p = .object o) (v : Value) :
    t.convert p key v = v.dict?.elim (mismatch key "dictionary" v) fun d =>
      (t.populateObject o d (t.newObject o)).toExcept.map .object := by
  rw [convert]
  split <;> rename_i hs <;> cases h.symm.trans hs
  cases v with
  | dict d => rfl
  | null | bool | int | double | string | binary | list => rfl

theorem toOption_convert_object {o : ObjectPlan} (h : t.shape p = .object o) :
    (t.convert p key v).toOption =
      v.dict?.bind fun d => (t.populateObject o d (t.newObject o)).result?.map .object := by
  rw [convert_object h]
  cases v.dict? with
  | none => rfl
  | some d => exact toOption_map _ _

theorem toOption_convertChoice_eq (c : ChoicesPlan) :
    (t.convertChoice c key v).toOption =
      (t.pick v 0 c.variants).bind fun r =>
        (t.convert r.2.plan (some r.2.label) v).toOption.map fun x =>
          ⟨(t.newChoice c).slots.set r.1 (some x)⟩ := by
  rw [convertChoice]
  split <;> rename_i hp <;> simp [hp]

theorem convert_choices {c : ChoicesPlan} (h : t.shape p = .choices c) (v : Value) :
    t.convert p key v = (t.convertChoice c key v).map .choice := by
  rw [convert]
  split <;> rename_i hs <;> cases h.symm.trans hs
  rfl

theorem toOption_convert_choices {c : ChoicesPlan} (h : t.shape p = .choices c) :
    (t.convert p key v).toOption = (t.convertChoice c key v).toOption.map .choice := by
  rw [convert_choices h, toOption_map]

/-- The key a value stands under shows in faults only. -/
theorem toOption_convert (t : Table) (p : Plan) (key : Option String) (v : Value) :
    (t.convert p key v).toOption = t.read? p v := by
  cases hs : t.shape p with
  | array items => rw [read?_array hs, toOption_convert_array hs]
  | object o => rw [read?, toOption_convert_object hs, toOption_convert_object hs]
  | choices c =>
    rw [read?, toOption_convert_choices hs, toOption_convert_choices hs,
      toOption_convertChoice_eq, toOption_convertChoice_eq]
  | boolean | integer | int64 | double | string | binary | any | function | enumeration =>
    have hl : (t.shape p).isLeaf = true := by rw [hs]; rfl
    rw [read?_leaf hl, toOption_convert_leaf hl]

theorem convert_eq_ok_iff {x : Data} : t.convert p key v = .ok x ↔ t.read? p v = some x := by
  rw [← toOption_convert t p key v, toOption_eq_some_iff]

theorem convert_eq_error_of_none (h : t.read? p v = none) (key : Option String) :
    ∃ f, t.convert p key v = .error f := by
  rw [← toOption_convert t p key v] at h
  cases hc : t.convert p key v with
  | error f => exact ⟨f, rfl⟩
  | ok x => simp [hc] at h

/-! ## Choices -/

/-- What a value is read as by a choice: the variant that `pick` finds takes it. -/
def readChoice? (t : Table) (c : ChoicesPlan) (v : Value) : Option Choice :=
  (t.pick v 0 c.variants).bind fun r =>
    (t.read? r.2.plan v).map fun x => ⟨(t.newChoice c).slots.set r.1 (some x)⟩

theorem toOption_convertChoice (c : ChoicesPlan) (key : Option String) (v : Value) :
    (t.convertChoice c key v).toOption = t.readChoice? c v := by
  simp only [toOption_convertChoice_eq, toOption_convert]
  rfl

theorem read?_choices {c : ChoicesPlan} (h : t.shape p = .choices c) (v : Value) :
    t.read? p v = (t.readChoice? c v).map .choice := by
  rw [read?, toOption_convert_choices h, toOption_convertChoice]

/-! ## Properties -/

/-- An optional function takes any value, which is not looked at. This is the second case of
`direct?`. -/
def ignores (t : Table) (q : PropertyPlan) : Bool := q.optional && (t.shape q.plan).isFunction

/-- What a property holds after reading, for a value that is not refused; `none` if
`populateProperty` meets a fault. -/
def readSlot? (t : Table) (q : PropertyPlan) : Option Value → Option (Option Data)
  | none => if q.optional then some (t.absentSlot q.plan) else none
  | some v => if t.ignores q then some (some (.function (.dict ∅))) else (t.read? q.plan v).map some

variable {q : PropertyPlan} {out : Object}

theorem direct?_of_ignores (h : t.ignores q = true) (v : Value) (out : Object) :
    direct? t q v out = some (.done (out.put q.name (some (.function (.dict ∅))))) := by
  simp only [ignores, Bool.and_eq_true, ShapeOf.isFunction_iff] at h
  simp [direct?, h.1, h.2]

/-- A list of enumeration members that `direct?` reads is read as any list. -/
theorem direct?_of_not_ignores (h : t.ignores q = false) {r : Outcome Object}
    (hr : direct? t q v out = some r) :
    ∃ xs fault, r = (out.put q.name (some (.array xs)), fault) ∧
      (Outcome.result? (xs, fault)).map .array = t.read? q.plan v := by
  unfold direct? at hr
  split at hr
  · rename_i items hs
    obtain ⟨e, he, rfl⟩ := Option.map_eq_some_iff.mp hr
    refine ⟨_, _, rfl, ?_⟩
    change (enumList e (some q.name) v).result?.map Data.array = _
    rw [read?_array hs, result?_enumList (shape_of_enum? he)]
    cases v <;> rfl
  · rename_i hs
    simp only [ignores, hs, ShapeOf.isFunction, Bool.and_true] at h
    simp [h] at hr
  · cases hr

theorem populateProperty_of_some {u : Option Value} {slot : Option Data}
    (h : t.readSlot? q u = some slot) (out : Object) :
    t.populateProperty q u out = (out.put q.name slot, none) := by
  cases u with
  | none =>
    rw [populateProperty]
    simp only [readSlot?] at h
    split at h
    · rename_i hq
      cases h
      simp [hq, Outcome.done]
    · cases h
  | some v =>
    rw [populateProperty]
    simp only [readSlot?] at h
    cases hi : t.ignores q with
    | true =>
      simp only [hi, if_true] at h
      cases h
      simp only [direct?_of_ignores hi v out]
      rfl
    | false =>
      simp only [hi, Bool.false_eq_true, if_false] at h
      obtain ⟨x, hx, rfl⟩ := Option.map_eq_some_iff.mp h
      cases hr : direct? t q v out with
      | none =>
        have hc : t.convert q.plan (some q.name) v = .ok x := convert_eq_ok_iff.mpr hx
        simp [hc, Outcome.done]
      | some r =>
        obtain ⟨xs, fault, rfl, hxs⟩ := direct?_of_not_ignores hi hr
        rw [hx] at hxs
        cases fault with
        | none =>
          cases hxs
          rfl
        | some f => cases hxs

theorem populateProperty_of_none {u : Option Value} (h : t.readSlot? q u = none) (out : Object) :
    ∃ f, (t.populateProperty q u out).2 = some f := by
  cases u with
  | none =>
    rw [populateProperty]
    simp only [readSlot?] at h
    split at h
    · cases h
    · rename_i hq
      simp [hq]
  | some v =>
    rw [populateProperty]
    simp only [readSlot?] at h
    cases hi : t.ignores q with
    | true => simp [hi] at h
    | false =>
      simp only [hi, Bool.false_eq_true, if_false, Option.map_eq_none_iff] at h
      cases hr : direct? t q v out with
      | none =>
        obtain ⟨f, hf⟩ := convert_eq_error_of_none h (some q.name)
        simp [hf]
      | some r =>
        obtain ⟨xs, fault, rfl, hxs⟩ := direct?_of_not_ignores hi hr
        rw [h] at hxs
        cases fault with
        | none => cases hxs
        | some f => exact ⟨f, rfl⟩

/-! ## Runs over properties -/

/-- Reads properties in turn, each from a value of its own. Both `populateProperties` and
`populateArguments` are of this form. -/
def populateEach (t : Table) : List (PropertyPlan × Option Value) → Object → Outcome Object
  | [], out => .done out
  | (q, u) :: rest, out => (t.populateProperty q u out).andThen (t.populateEach rest)

theorem populateProperties_eq (ps : List PropertyPlan) (d : Dict Value) (out : Object) :
    t.populateProperties ps d out = t.populateEach (ps.map fun q => (q, d.get? q.name)) out := by
  induction ps generalizing out with
  | nil =>
    rw [populateProperties]
    rfl
  | cons q ps ih =>
    rw [populateProperties, List.map_cons, populateEach]
    congr 1
    funext out
    exact ih out

/-- Parameters with their arguments; one that is null counts as not given (`given?`). -/
def assign : List PropertyPlan → List Value → List (PropertyPlan × Option Value)
  | [], _ => []
  | q :: ps, args => (q, given? args.head?) :: assign ps args.tail

theorem map_fst_assign (ps : List PropertyPlan) (args : List Value) : (assign ps args).map (·.1) = ps := by
  induction ps generalizing args with
  | nil => rfl
  | cons q ps ih => rw [assign, List.map_cons, ih]

theorem populateArguments_eq (ps : List PropertyPlan) (args : List Value) (out : Object) :
    t.populateArguments ps args out = t.populateEach (assign ps args) out := by
  induction ps generalizing args out with
  | nil => rfl
  | cons q ps ih =>
    rw [populateArguments, assign, populateEach]
    congr 1
    funext out
    exact ih args.tail out

/-- What properties hold after reading, each by `readSlot?`. -/
def readSlots? (t : Table) (qs : List (PropertyPlan × Option Value)) : Option (List (Option Data)) :=
  qs.mapM fun r => t.readSlot? r.1 r.2

/-- The names of properties with what they hold, as they are entered into the fields. -/
def named (qs : List (PropertyPlan × Option Value)) (slots : List (Option Data)) :
    List (String × Option Data) :=
  (qs.map (·.1.name)).zip slots

/-- Without a fault `populateEach` enters the slots of all properties. -/
theorem populateEach_of_some {qs : List (PropertyPlan × Option Value)} {slots : List (Option Data)}
    (h : t.readSlots? qs = some slots) (out : Object) :
    t.populateEach qs out = ({ out with fields := out.fields.enter (named qs slots) }, none) := by
  induction qs generalizing slots out with
  | nil =>
    cases h
    rfl
  | cons r qs ih =>
    obtain ⟨q, u⟩ := r
    simp only [readSlots?, List.mapM_cons, Option.bind_eq_bind, Option.bind_eq_some_iff,
      Option.pure_def, Option.some.injEq] at h
    obtain ⟨slot, hslot, slots, hslots, rfl⟩ := h
    rw [populateEach, populateProperty_of_some hslot]
    exact ih hslots _

theorem populateEach_of_none {qs : List (PropertyPlan × Option Value)} (h : t.readSlots? qs = none)
    (out : Object) : ∃ f, (t.populateEach qs out).2 = some f := by
  induction qs generalizing out with
  | nil => cases h
  | cons r qs ih =>
    obtain ⟨q, u⟩ := r
    rw [populateEach]
    cases hslot : t.readSlot? q u with
    | none =>
      obtain ⟨f, hf⟩ := populateProperty_of_none hslot out
      exact ⟨f, by simp [Outcome.andThen, hf]⟩
    | some slot =>
      rw [populateProperty_of_some hslot]
      refine ih ?_ _
      simp only [readSlots?, List.mapM_cons, hslot] at h ⊢
      cases hq : qs.mapM fun r => t.readSlot? r.1 r.2 with
      | none => rfl
      | some slots => simp [hq] at h

theorem result?_populateEach (qs : List (PropertyPlan × Option Value)) (out : Object) :
    (t.populateEach qs out).result? =
      (t.readSlots? qs).map fun slots =>
        { out with fields := out.fields.enter (named qs slots) } := by
  cases h : t.readSlots? qs with
  | none =>
    obtain ⟨f, hf⟩ := populateEach_of_none h out
    simp [Outcome.result?, Outcome.toExcept, hf]
  | some slots =>
    rw [populateEach_of_some h]
    rfl

/-! ## Extra properties -/

/-- What the entries of a dictionary are read as by `populateExtras`. -/
def readEntries? (t : Table) (p : Plan) (es : List (String × Value)) : Option (List (String × Data)) :=
  es.mapM fun e => (t.read? p e.2).map fun x => (e.1, x)

theorem result?_populateExtras {base : Dict Data} (hout : out.extras = .typed base)
    (es : List (String × Value)) :
    (t.populateExtras p es out).result? =
      (t.readEntries? p es).map fun xs => { out with extras := .typed (base.enter xs) } := by
  induction es generalizing out base with
  | nil =>
    obtain ⟨fields, extras⟩ := out
    cases hout
    rw [populateExtras]
    rfl
  | cons e es ih =>
    obtain ⟨k, v⟩ := e
    rw [populateExtras, readEntries?, List.mapM_cons]
    cases hc : t.convert p (some k) v with
    | error f =>
      have hr : t.read? p v = none := by rw [← toOption_convert t p (some k) v, hc]; rfl
      simp [hr]
    | ok x =>
      have hr := convert_eq_ok_iff.mp hc
      have hput : (putTyped out k x).extras = .typed (base.insert k x) := by
        simp [putTyped, hout, Data.ExtrasOf.typed?]
      simp only [ih hput, hr, readEntries?]
      cases es.mapM fun e => (t.read? p e.2).map fun x => (e.1, x) <;> rfl

/-- The extra properties that an object is read with, over those of `newExtras`. -/
def readExtras? (t : Table) (o : ObjectPlan) (d : Dict Value) : Option Extras :=
  match o.additional with
  | none => some .closed
  | some a =>
    match t.shape a with
    | .any => some (.any (Value.merge ∅ d))
    | _ => (t.readEntries? a d.entries).map fun es => .typed (.ofList es)

/-! ## Objects -/

/-- The properties of an object plan with the values that a dictionary has for them, for
`populateEach`. -/
def sources (o : ObjectPlan) (d : Dict Value) : List (PropertyPlan × Option Value) :=
  o.properties.map fun q => (q, d.get? q.name)

theorem map_name_sources (o : ObjectPlan) (d : Dict Value) :
    (sources o d).map (·.1.name) = o.properties.map (·.name) := by
  simp [sources]

/-- What a dictionary is read as by an object plan. -/
def readObject? (t : Table) (o : ObjectPlan) (d : Dict Value) : Option Object :=
  (t.readSlots? (sources o d)).bind fun slots =>
    (t.readExtras? o d).map fun extras => ⟨.ofList (named (sources o d) slots), extras⟩

theorem map_fst_defaultFields (ps : List PropertyPlan) :
    (t.defaultFields ps).map (·.1) = ps.map (·.name) := by
  induction ps with
  | nil => simp [defaultFields]
  | cons q ps ih => simp [defaultFields, ih]

theorem readSlots?_length {qs : List (PropertyPlan × Option Value)} {slots : List (Option Data)}
    (h : t.readSlots? qs = some slots) : qs.length = slots.length :=
  (mapM_eq_some_iff.mp h).length_eq

theorem map_fst_named {qs : List (PropertyPlan × Option Value)} {slots : List (Option Data)}
    (h : qs.length = slots.length) : (named qs slots).map (·.1) = qs.map (·.1.name) :=
  List.map_fst_zip (by simp [h])

/-- What `resetEnums` does leaves the keys as they are. -/
theorem resetEnums_keys {ps : List PropertyPlan} (h : ∀ q ∈ ps, q.name ∈ out.fields.keys) :
    (resetEnums t ps out).fields.keys = out.fields.keys ∧
      (resetEnums t ps out).extras = out.extras := by
  induction ps generalizing out with
  | nil => exact ⟨rfl, rfl⟩
  | cons q ps ih =>
    rw [List.forall_mem_cons] at h
    simp only [resetEnums, List.foldl_cons]
    split
    · have hk : (out.put q.name (some (.enumeration .none))).fields.keys = out.fields.keys := by
        rw [Data.ObjectOf.put, Dict.keys_insert, if_pos h.1]
      have hps : ∀ q' ∈ ps, q'.name ∈ (out.put q.name (some (.enumeration .none))).fields.keys := by
        rw [hk]
        exact h.2
      obtain ⟨hkeys, hextras⟩ := ih hps
      exact ⟨hkeys.trans hk, hextras⟩
    · exact ih h.2

theorem resetEnums_distinct {ps : List PropertyPlan} (h : out.fields.Distinct) :
    (resetEnums t ps out).fields.Distinct := by
  induction ps generalizing out with
  | nil => exact h
  | cons q ps ih =>
    simp only [resetEnums, List.foldl_cons]
    split
    · exact ih (h.insert _ _)
    · exact ih h

/-- The fields of a new object are all written over, so nothing of its defaults is left. -/
theorem enter_newObject {o : ObjectPlan} {qs : List (PropertyPlan × Option Value)}
    (hqs : qs.map (·.1.name) = o.properties.map (·.name)) {slots : List (Option Data)}
    (h : qs.length = slots.length) {d : Dict (Option Data)} (hd : d.Distinct)
    (hk : d.keys = (t.newObject o).fields.keys) : d.enter (named qs slots) = .ofList (named qs slots) := by
  refine Dict.enter_eq_ofList hd (hk.trans (Dict.keys_ofList_congr ?_))
  rw [map_fst_defaultFields, map_fst_named h, hqs]

theorem result?_populateObject_new (o : ObjectPlan) (d : Dict Value) :
    (t.populateObject o d (t.newObject o)).result? = t.readObject? o d := by
  have hkeys : ∀ q ∈ o.properties, q.name ∈ (t.newObject o).fields.keys := by
    intro q hq
    rw [newObject, Dict.mem_keys_ofList, map_fst_defaultFields]
    exact List.mem_map.mpr ⟨q, hq, rfl⟩
  obtain ⟨hk, hx⟩ := resetEnums_keys (t := t) hkeys
  rw [populateObject, Outcome.result?_andThen, populateProperties_eq, result?_populateEach, readObject?,
    ← sources]
  cases hs : t.readSlots? (sources o d) with
  | none => rfl
  | some slots =>
    rw [Option.map_some, Option.bind_some, Option.bind_some, hx,
      enter_newObject (map_name_sources o d) (readSlots?_length hs)
        (resetEnums_distinct (Dict.distinct_ofList _)) hk]
    simp only [newObject, newExtras, readExtras?]
    cases o.additional with
    | none => rfl
    | some a =>
      simp only
      cases t.shape a with
      | any => rfl
      | boolean | integer | int64 | double | string | binary | function | enumeration | array | object
      | choices =>
        simp only
        rw [result?_populateExtras rfl, Option.map_map]
        rfl

theorem read?_object {o : ObjectPlan} (h : t.shape p = .object o) (v : Value) :
    t.read? p v = v.dict?.bind fun d => (t.readObject? o d).map .object := by
  simp only [read?, toOption_convert_object h, result?_populateObject_new]

/-- In all cases of `takesCount` the number of arguments lies between that of the required
parameters and that of all. -/
theorem takesCount_iff {params : ObjectPlan} {n : Nat} : params.takesCount n = true ↔
    params.properties.countP (!·.optional) ≤ n ∧ n ≤ params.properties.length := by
  have hle : params.properties.countP (!·.optional) ≤ params.properties.length := List.countP_le_length
  rw [ObjectOf.takesCount]
  split
  · rw [decide_eq_true_iff]
    omega
  · split <;> rw [decide_eq_true_iff]
    omega

theorem readArguments_eq (params : ObjectPlan) (args : List Value) :
    t.readArguments params args =
      if params.properties.countP (!·.optional) ≤ args.length ∧
          args.length ≤ params.properties.length then
        (t.populateArguments params.properties args (t.newObject params)).toExcept
      else .error (.argumentCount params.properties.length args.length) := by
  rw [readArguments]
  exact if_congr takesCount_iff rfl rfl

/-- What arguments are read as, where their number is right. -/
theorem toOption_readArguments (params : ObjectPlan) (args : List Value) :
    (t.readArguments params args).toOption =
      if params.properties.countP (!·.optional) ≤ args.length ∧
          args.length ≤ params.properties.length then
        (t.readSlots? (assign params.properties args)).map fun slots =>
          ⟨.ofList (named (assign params.properties args) slots), t.newExtras params⟩
      else none := by
  have hn : (assign params.properties args).map (·.1.name) = params.properties.map (·.name) := by
    conv_rhs => rw [← map_fst_assign params.properties args, List.map_map]
    rfl
  rw [readArguments_eq]
  split
  · change (t.populateArguments params.properties args (t.newObject params)).result? = _
    rw [populateArguments_eq, result?_populateEach]
    cases hs : t.readSlots? (assign params.properties args) with
    | none => rfl
    | some slots =>
      rw [Option.map_some, Option.map_some,
        enter_newObject (d := (t.newObject params).fields) hn (readSlots?_length hs)
          (Dict.distinct_ofList _) rfl]
      rfl
  · rfl

/-! ## What is read, by cases -/

/-- How `read?` reads a value as data of a plan: in one of four ways, by the shape of the plan. -/
inductive ReadsAs (t : Table) (p : Plan) : Value → Data → Prop
  | leaf {v : Value} {x : Data} (hs : (t.shape p).isLeaf = true)
      (h : (t.shape p).readLeaf? v = some x) : ReadsAs t p v x
  | array {items : Plan} {vs : List Value} {xs : List Data} (hs : t.shape p = .array items)
      (h : List.Forall₂ (fun v x => t.read? items v = some x) vs xs) :
      ReadsAs t p (.list vs) (.array xs)
  | object {o : ObjectPlan} {d : Dict Value} {x : Object} (hs : t.shape p = .object o)
      (h : t.readObject? o d = some x) : ReadsAs t p (.dict d) (.object x)
  | choice {c : ChoicesPlan} {v : Value} {x : Choice} (hs : t.shape p = .choices c)
      (h : t.readChoice? c v = some x) : ReadsAs t p v (.choice x)

theorem readsAs_of_read? {x : Data} (h : t.read? p v = some x) : t.ReadsAs p v x := by
  cases hs : t.shape p with
  | array items =>
    rw [read?_array hs] at h
    obtain ⟨vs, hv, h⟩ := Option.bind_eq_some_iff.mp h
    obtain ⟨xs, hxs, rfl⟩ := Option.map_eq_some_iff.mp h
    cases v <;> cases hv
    exact .array hs (mapM_eq_some_iff.mp hxs)
  | object o =>
    rw [read?_object hs] at h
    obtain ⟨d, hd, h⟩ := Option.bind_eq_some_iff.mp h
    obtain ⟨x, hx, rfl⟩ := Option.map_eq_some_iff.mp h
    cases v <;> cases hd
    exact .object hs hx
  | choices c =>
    rw [read?_choices hs] at h
    obtain ⟨x, hx, rfl⟩ := Option.map_eq_some_iff.mp h
    exact .choice hs hx
  | boolean | integer | int64 | double | string | binary | any | function | enumeration =>
    have hl : (t.shape p).isLeaf = true := by rw [hs]; rfl
    exact .leaf hl (by rwa [read?_leaf hl] at h)

/-- A choice is read by the first variant that `admits` the value. -/
theorem pick_eq_some_iff {v : Value} {k i : Nat} {ws : List VariantPlan} {w : VariantPlan} :
    t.pick v k ws = some (i, w) ↔
      ∃ before after, ws = before ++ w :: after ∧ i = k + before.length ∧
        (∀ u ∈ before, t.admits u.plan v = false) ∧ t.admits w.plan v = true := by
  induction ws generalizing k with
  | nil => simp [pick]
  | cons u ws ih =>
    rw [pick]
    cases hu : t.admits u.plan v with
    | true =>
      simp only [if_true, Option.some.injEq, Prod.mk.injEq]
      constructor
      · rintro ⟨rfl, rfl⟩
        exact ⟨[], ws, rfl, rfl, by simp, hu⟩
      · rintro ⟨before, after, hws, rfl, hb, -⟩
        cases before with
        | nil =>
          cases hws
          exact ⟨rfl, rfl⟩
        | cons u' before =>
          cases hws
          simp [hu] at hb
    | false =>
      simp only [Bool.false_eq_true, if_false, ih]
      constructor
      · rintro ⟨before, after, rfl, rfl, hb, hw⟩
        refine ⟨u :: before, after, rfl, by simp only [List.length_cons]; omega, ?_, hw⟩
        exact List.forall_mem_cons.mpr ⟨hu, hb⟩
      · rintro ⟨before, after, hws, rfl, hb, hw⟩
        cases before with
        | nil =>
          cases hws
          rw [hu] at hw
          cases hw
        | cons u' before =>
          cases hws
          exact ⟨before, after, rfl, by simp only [List.length_cons]; omega,
            (List.forall_mem_cons.mp hb).2, hw⟩

theorem getElem?_of_pick {v : Value} {i : Nat} {ws : List VariantPlan} {w : VariantPlan}
    (h : t.pick v 0 ws = some (i, w)) : ws[i]? = some w := by
  obtain ⟨before, after, rfl, rfl, -, -⟩ := pick_eq_some_iff.mp h
  simp

/-- Variants before the one that is picked do not admit the value. -/
theorem admits_of_lt_pick {v : Value} {i j : Nat} {ws : List VariantPlan} {w u : VariantPlan}
    (h : t.pick v 0 ws = some (i, w)) (hj : j < i) (hu : ws[j]? = some u) : t.admits u.plan v = false := by
  obtain ⟨before, after, rfl, rfl, first, -⟩ := pick_eq_some_iff.mp h
  rw [Nat.zero_add] at hj
  exact forall_getElem?_append_iff.mpr first j hj u hu

theorem admits_of_pick {v : Value} {i : Nat} {ws : List VariantPlan} {w : VariantPlan}
    (h : t.pick v 0 ws = some (i, w)) : t.admits w.plan v = true := by
  obtain ⟨_, _, -, -, -, ha⟩ := pick_eq_some_iff.mp h
  exact ha

theorem exists_of_readChoice? {c : ChoicesPlan} {x : Choice} (h : t.readChoice? c v = some x) :
    ∃ i w y, t.pick v 0 c.variants = some (i, w) ∧ t.read? w.plan v = some y ∧
      x = ⟨(t.newChoice c).slots.set i (some y)⟩ := by
  obtain ⟨⟨i, w⟩, hp, h⟩ := Option.bind_eq_some_iff.mp h
  obtain ⟨y, hy, rfl⟩ := Option.map_eq_some_iff.mp h
  exact ⟨i, w, y, hp, hy, rfl⟩

section Fields

variable {qs : List (PropertyPlan × Option Value)} {slots : List (Option Data)}

theorem mem_named (h : t.readSlots? qs = some slots) {r : PropertyPlan × Option Value} (hr : r ∈ qs) :
    ∃ slot, t.readSlot? r.1 r.2 = some slot ∧ (r.1.name, slot) ∈ named qs slots := by
  have hf := mapM_eq_some_iff.mp h
  clear h
  induction hf with
  | nil => simp at hr
  | @cons r' slot qs slots hslot _ ih =>
    rcases List.mem_cons.mp hr with rfl | hr
    · exact ⟨slot, hslot, List.mem_cons_self⟩
    · obtain ⟨slot', hs, hm⟩ := ih hr
      exact ⟨slot', hs, List.mem_cons_of_mem _ hm⟩

theorem exists_of_mem_named (h : t.readSlots? qs = some slots) {e : String × Option Data}
    (he : e ∈ named qs slots) : ∃ r ∈ qs, r.1.name = e.1 ∧ t.readSlot? r.1 r.2 = some e.2 := by
  have hf := mapM_eq_some_iff.mp h
  clear h
  induction hf with
  | nil => simp [named] at he
  | @cons r slot qs slots hslot _ ih =>
    simp only [named, List.map_cons, List.zip_cons_cons, List.mem_cons] at he
    rcases he with rfl | he
    · exact ⟨r, List.mem_cons_self, rfl, hslot⟩
    · obtain ⟨r', hr', h⟩ := ih he
      exact ⟨r', List.mem_cons_of_mem _ hr', h⟩

/-- What a field holds has been read by `readSlot?` for a property of its name. -/
theorem exists_of_get? (h : t.readSlots? qs = some slots) {extras : Extras} {k : String} {y : Data}
    (hk : Data.ObjectOf.get? ⟨.ofList (named qs slots), extras⟩ k = some y) :
    ∃ r ∈ qs, r.1.name = k ∧ t.readSlot? r.1 r.2 = some (some y) := by
  obtain hg := Option.join_eq_some_iff.mp hk
  exact exists_of_mem_named h (Dict.mem_ofList (Dict.mem_of_get? hg))

/-- Of properties with distinct names each one is found with its own slot. -/
theorem readSlot?_of_readSlots? (hn : (qs.map (·.1.name)).Nodup) (h : t.readSlots? qs = some slots)
    {extras : Extras} {r : PropertyPlan × Option Value} (hr : r ∈ qs) :
    t.readSlot? r.1 r.2 =
      some (Data.ObjectOf.get? ⟨.ofList (named qs slots), extras⟩ r.1.name) := by
  obtain ⟨slot, hslot, hm⟩ := mem_named h hr
  have hk : ((named qs slots).map (·.1)).Nodup := by
    rwa [map_fst_named (readSlots?_length h)]
  have hg : (Dict.ofList (named qs slots)).get? r.1.name = some slot := by
    rw [Dict.get?_ofList_of_nodup hk]
    exact Dict.lookup_of_mem hk hm
  rw [hslot, Data.ObjectOf.get?, hg, Option.join_some]

theorem keys_ofList_named (hn : (qs.map (·.1.name)).Nodup) (h : t.readSlots? qs = some slots) :
    (Dict.ofList (named qs slots)).keys = qs.map (·.1.name) := by
  have hk := map_fst_named (readSlots?_length h)
  rw [Dict.ofList_of_nodup (by rwa [hk]), Dict.keys, hk]

end Fields

theorem readSlot?_of_readObject? {o : ObjectPlan} {d : Dict Value} {x : Object}
    (hn : (o.properties.map (·.name)).Nodup) (h : t.readObject? o d = some x) {q : PropertyPlan}
    (hq : q ∈ o.properties) : t.readSlot? q (d.get? q.name) = some (x.get? q.name) := by
  obtain ⟨slots, hs, h⟩ := Option.bind_eq_some_iff.mp h
  obtain ⟨extras, -, rfl⟩ := Option.map_eq_some_iff.mp h
  exact readSlot?_of_readSlots? (by rwa [map_name_sources]) hs (r := (q, d.get? q.name))
    (List.mem_map.mpr ⟨q, hq, rfl⟩)

theorem keys_of_readObject? {o : ObjectPlan} {d : Dict Value} {x : Object}
    (hn : (o.properties.map (·.name)).Nodup) (h : t.readObject? o d = some x) :
    x.fields.keys = o.properties.map (·.name) := by
  obtain ⟨slots, hs, h⟩ := Option.bind_eq_some_iff.mp h
  obtain ⟨extras, -, rfl⟩ := Option.map_eq_some_iff.mp h
  rw [keys_ofList_named (by rwa [map_name_sources]) hs, map_name_sources]

theorem readExtras?_of_readObject? {o : ObjectPlan} {d : Dict Value} {x : Object}
    (h : t.readObject? o d = some x) : t.readExtras? o d = some x.extras := by
  obtain ⟨slots, -, h⟩ := Option.bind_eq_some_iff.mp h
  obtain ⟨extras, he, rfl⟩ := Option.map_eq_some_iff.mp h
  exact he

/-! ## Induction -/

/-- Reading goes from a value to its parts, or from a choice to its variants, so `convert`
terminates; proofs about `read?` follow the same order. -/
theorem read_induction (t : Table) {motive : Plan → Value → Prop}
    (step : ∀ p v, (∀ u, Value.Part u v → ∀ q, motive q u) →
      (∀ c, t.shape p = .choices c → ∀ w ∈ c.variants, motive w.plan v) → motive p v)
    (p : Plan) (v : Value) : motive p v :=
  step p v (fun u _ q => read_induction t step q u) (fun _ _ w _ => read_induction t step w.plan v)
termination_by (sizeOf v, t.variantHeight p, sizeOf p)
decreasing_by
  · exact .left _ _ (Value.Part.sizeOf_lt ‹_›)
  · exact .right _ (lex_trans (t.variant_lex ‹_›) (t.choices_lex ‹_›))

end Table

end Interchange
