import Interchange.Proofs.Conformance

/-! # Reading values over instances

Each step of a run writes a slot that conforms, also where the value is refused, so a run leaves a
conforming instance wherever it ends (`ConformsObject.populateObject`). `Codec.Sound` collects this
for the types, functions and events of a codec.

An `EntryType` is a type of a codec as its entry gives it. What holds of object types and of choices
types alike is shown of it, once, and carried over by `EntryType.Presents`.
-/

namespace Interchange

open Plan Populate

namespace Table

variable {t : Table} {p : Plan} {o : ObjectPlan} {q : PropertyPlan} {out : Object}

/-! ## Steps -/

theorem conforms_enumItems {e : EnumPlan} (hs : t.shape p = .enumeration e) (key : Option String)
    (i : Nat) (vs : List Value) : ∀ x ∈ (enumItems e key i vs).1, t.Conforms p x := by
  induction vs generalizing i with
  | nil => simp [enumItems, Outcome.done]
  | cons v vs ih =>
    rw [enumItems]
    split
    · simp
    · rw [List.forall_mem_cons]
      exact ⟨.leaf (by rw [hs]; rfl), ih (i + 1)⟩

theorem conforms_enumList {e : EnumPlan} (hs : t.shape p = .enumeration e) (key : Option String)
    (v : Value) : ∀ x ∈ (enumList e key v).1, t.Conforms p x := by
  cases v with
  | list vs => exact conforms_enumItems hs key 0 vs
  | _ => simp [enumList]

/-- A property that `direct?` reads gets a slot that conforms, even if the value is refused
half-way. -/
theorem exists_slot_of_direct? {v : Value} {r : Outcome Object} (h : direct? t q v out = some r) :
    ∃ slot, r.1 = out.put q.name slot ∧ t.ConformsSlot q slot := by
  unfold direct? at h
  split at h
  · rename_i items hs
    obtain ⟨e, he, rfl⟩ := Option.map_eq_some_iff.mp h
    refine ⟨_, rfl, conformsSlot_some (.array hs ?_)⟩
    exact conforms_enumList (shape_of_enum? he) (some q.name) v
  · rename_i hs
    split at h
    · cases h
      exact ⟨_, rfl, conformsSlot_some (.leaf (by rw [hs]; rfl))⟩
    · cases h
  · cases h

/-- What `refuse` leaves where a value is refused conforms. -/
theorem ConformsObject.refuse (hn : (o.properties.map (·.name)).Nodup) (h : t.ConformsObject o out)
    (hq : q ∈ o.properties) : t.ConformsObject o (refuse t q out) := by
  unfold Populate.refuse
  split
  · rename_i hs
    exact h.put hn hq (conformsSlot_some (.leaf (by rw [hs]; rfl)))
  · rwa [h.reserve hq]
  · rwa [h.reserve hq]
  · rwa [h.reserve hq]
  · rename_i hs _ _ _
    split
    · rename_i ho
      refine h.put hn hq ⟨fun hq => ?_, nofun⟩
      rcases hq with hq | hq
      · rw [ho] at hq
        cases hq
      · obtain ⟨e, he⟩ := isEnum_iff.mp hq
        exact absurd he (hs e)
    · rwa [h.reserve hq]

/-- One property, read or refused: the step of `populateEach`. -/
theorem ConformsObject.populateProperty (hs : t.shape p = .object o) (hu : t.UniqueNames p)
    (h : t.ConformsObject o out) (hq : q ∈ o.properties) (u : Option Value) :
    t.ConformsObject o (t.populateProperty q u out).1 := by
  have hn := hu.nodup hs
  cases u with
  | none =>
    rw [Table.populateProperty]
    split
    · exact h.put hn hq (conformsSlot_absent ‹_›)
    · exact h
  | some v =>
    rw [Table.populateProperty]
    split
    · rename_i r hr
      obtain ⟨slot, hput, hslot⟩ := exists_slot_of_direct? hr
      rw [hput]
      exact h.put hn hq hslot
    · split
      · rename_i y hy
        have hc := conforms_of_read? (hu.part (part_property hs hq)) (convert_eq_ok_iff.mp hy)
        exact h.put hn hq (conformsSlot_some hc)
      · exact h.refuse hn hq

/-- One typed extra property: the step of `populateExtras`. -/
theorem ConformsObject.putTyped {a : Plan} (ha : o.additional = some a) (hs : t.shape a ≠ .any)
    (h : t.ConformsObject o out) {key : String} {y : Data} (hy : t.Conforms a y) :
    t.ConformsObject o (putTyped out key y) where
  fields := h.fields
  slots := h.slots
  extras := holdsExtras_typed ha hs _
  typed a' d ha' hd e he := by
    rw [ha] at ha'
    cases ha'
    cases hd
    rcases Dict.mem_put he with rfl | he
    · exact hy
    · cases hx : out.extras with
      | typed d =>
        rw [hx] at he
        exact h.typed a d ha hx e he
      | closed | any =>
        rw [hx] at he
        cases he

/-! ## Runs -/

theorem andThen_fst_of {σ : Type} {P : σ → Prop} {r : Outcome σ} {next : σ → Outcome σ} (hr : P r.1)
    (hnext : ∀ s, P s → P (next s).1) : P (r.andThen next).1 := by
  obtain ⟨s, fault⟩ := r
  cases fault with
  | none => exact hnext s hr
  | some f => exact hr

theorem ConformsObject.populateEach (hs : t.shape p = .object o) (hu : t.UniqueNames p)
    (h : t.ConformsObject o out) {qs : List (PropertyPlan × Option Value)}
    (hqs : ∀ r ∈ qs, r.1 ∈ o.properties) : t.ConformsObject o (t.populateEach qs out).1 := by
  induction qs generalizing out with
  | nil => exact h
  | cons r qs ih =>
    rw [List.forall_mem_cons] at hqs
    exact andThen_fst_of (h.populateProperty hs hu hqs.1 r.2) fun out hout => ih hout hqs.2

theorem ConformsObject.populateExtras {a : Plan} (ha : o.additional = some a) (hs : t.shape a ≠ .any)
    (hu : t.UniqueNames a) (h : t.ConformsObject o out) (es : List (String × Value)) :
    t.ConformsObject o (t.populateExtras a es out).1 := by
  induction es generalizing out with
  | nil =>
    rw [Table.populateExtras]
    exact h
  | cons e es ih =>
    rw [Table.populateExtras]
    split
    · exact h
    · rename_i y hy
      exact ih (h.putTyped ha hs (conforms_of_read? hu (convert_eq_ok_iff.mp hy)))

/-- Reading a dictionary over a conforming object by `populateObject` leaves it conforming, wherever
reading ends. -/
theorem ConformsObject.populateObject (hs : t.shape p = .object o) (hu : t.UniqueNames p)
    (h : t.ConformsObject o out) (d : Dict Value) :
    t.ConformsObject o (t.populateObject o d out).1 := by
  rw [Table.populateObject, populateProperties_eq]
  refine andThen_fst_of ?_ fun out hout => ?_
  · refine (h.resetEnums (hu.nodup hs) fun _ hq => hq).populateEach hs hu fun r hr => ?_
    obtain ⟨q, hq, rfl⟩ := List.mem_map.mp hr
    exact hq
  · split
    · exact hout
    · rename_i a ha
      split
      · rename_i hany
        refine ⟨hout.fields, hout.slots, holdsExtras_any ha hany _, ?_⟩
        intro a' e _ he
        cases he
      · exact hout.populateExtras ha ‹_› (hu.part (part_additional hs ha)) d.entries

theorem conformsChoice_of_readChoice? {c : ChoicesPlan} (hs : t.shape p = .choices c)
    (hu : t.UniqueNames p) {v : Value} {x : Choice} (h : t.readChoice? c v = some x) :
    t.ConformsChoice c x := by
  rw [← conforms_choice_iff hs]
  exact conforms_of_read? hu ((read?_choices hs v).trans (by rw [h, Option.map_some]))

theorem conformsChoice_populateChoice {c : ChoicesPlan} (hs : t.shape p = .choices c)
    (hu : t.UniqueNames p) (key : Option String) (v : Value) :
    t.ConformsChoice c (t.populateChoice c key v).1 := by
  rw [populateChoice]
  split
  · rename_i x hx
    refine conformsChoice_of_readChoice? (v := v) hs hu ?_
    rw [← toOption_convertChoice c key v, hx]
    rfl
  · exact conformsChoice_newChoice t c

/-! ## Arguments -/

theorem conformsObject_of_readArguments (hs : t.shape p = .object o) (hu : t.UniqueNames p)
    {args : List Value} {x : Object} (h : t.readArguments o args = .ok x) : t.ConformsObject o x := by
  rw [readArguments_eq] at h
  split at h
  · have hqs : ∀ r ∈ assign o.properties args, r.1 ∈ o.properties := by
      intro r hr
      rw [← map_fst_assign o.properties args]
      exact List.mem_map.mpr ⟨r, hr, rfl⟩
    have hx := (conformsObject_new hs hu).populateEach hs hu hqs
    rw [← populateArguments_eq] at hx
    rw [← toOption_eq_some_iff] at h
    rw [Outcome.result?_eq_some_iff.mp h] at hx
    exact hx
  · cases h

theorem settled_of_readSlots? {qs : List (PropertyPlan × Option Value)} {slots : List (Option Data)}
    (h : t.readSlots? qs = some slots) : (Data.object ⟨.ofList (named qs slots), t.newExtras o⟩).Settled := by
  refine Data.settled_of_parts nofun fun y hy => ?_
  cases hy with
  | field hy =>
    obtain ⟨r, -, -, hslot⟩ := exists_of_get? h hy
    exact settled_of_readSlot? hslot fun _ _ hr => settled_of_read? hr
  | extra hd hm =>
    rw [typed_newExtras hd] at hm
    cases hm

theorem settled_of_readArguments {args : List Value} {x : Object} (h : t.readArguments o args = .ok x) :
    (Data.object x).Settled := by
  rw [← toOption_eq_some_iff, toOption_readArguments] at h
  split at h
  · obtain ⟨slots, hslots, rfl⟩ := Option.map_eq_some_iff.mp h
    exact settled_of_readSlots? hslots
  · cases h

/-! ## Manifests -/

theorem ConformsObject.parseProperties (hn : (o.properties.map (·.name)).Nodup) {d : Dict Value}
    {ps : List PropertyPlan} (hps : ∀ q ∈ ps, q ∈ o.properties)
    (hc : ∀ q ∈ ps, ∀ v x, d.get? q.name = some v → t.parseValue q v = .ok x → t.Conforms q.plan x)
    (h : t.ConformsObject o out) : t.ConformsObject o (t.parseProperties ps d out).1 := by
  induction ps generalizing out with
  | nil =>
    rw [Table.parseProperties]
    exact h
  | cons q ps ih =>
    rw [List.forall_mem_cons] at hps hc
    rw [Table.parseProperties]
    split
    · rename_i v hv
      split
      · exact h
      · rename_i x hx
        exact ih hps.2 hc.2 (h.put hn hps.1 (conformsSlot_some (hc.1 v x hv hx)))
    · split
      · exact ih hps.2 hc.2 (h.put hn hps.1 (conformsSlot_absent ‹_›))
      · exact h

/-- Whatever `parseValue` reads from a manifest conforms. -/
theorem conforms_of_parseValue {v : Value} (hu : t.UniqueNames q.plan) {x : Data}
    (h : t.parseValue q v = .ok x) : t.Conforms q.plan x := by
  induction v using Value.part_induction generalizing q x with
  | step v ih =>
    rw [parseValue.eq_def] at h
    split at h <;> rename_i hs
    · split at h
      · split at h
        · cases h
        · cases h
          exact .leaf (by rw [hs]; rfl)
      · cases h
    · rename_i o
      split at h
      · rename_i d
        have hvalues : ∀ q' ∈ o.properties, ∀ u y, d.get? q'.name = some u →
            t.parseValue q' u = .ok y → t.Conforms q'.plan y := fun q' hq' u y hg hy =>
          ih u (.of_get? hg) (hu.part (part_property hs hq')) hy
        have hchild := (conformsObject_new hs hu).parseProperties (hu.nodup hs) (fun _ hq => hq) hvalues
        split at h
        · cases h
        · rename_i child hr
          cases h
          rw [hr] at hchild
          exact (conforms_object_iff hs).mpr hchild
      · cases h
    · rename_i c
      rw [Codec.mapError_eq_ok_iff] at h
      cases hx : t.convertChoice c none v with
      | error f =>
        rw [hx] at h
        cases h
      | ok y =>
        rw [hx] at h
        cases h
        rw [conforms_choice_iff hs]
        refine conformsChoice_of_readChoice? (v := v) hs hu ?_
        rw [← toOption_convertChoice c none v, hx, toOption_ok]
    · split at h
      · exact conforms_of_read? hu (convert_eq_ok_iff.mp (Codec.mapError_eq_ok_iff.mp h))
      · cases h
    · exact conforms_of_read? hu (convert_eq_ok_iff.mp (Codec.mapError_eq_ok_iff.mp h))

theorem ConformsObject.parseObject (hs : t.shape p = .object o) (hu : t.UniqueNames p)
    (h : t.ConformsObject o out) (d : Dict Value) : t.ConformsObject o (t.parseObject o d out).1 :=
  h.parseProperties (hu.nodup hs) (fun _ hq => hq) fun _ hq _ _ _ hx =>
    conforms_of_parseValue (hu.part (part_property hs hq)) hx

theorem ConformsObject.parseObjectAt (hs : t.shape p = .object o) (hu : t.UniqueNames p)
    (h : t.ConformsObject o out) (d : Dict Value) (key : String) :
    t.ConformsObject o (t.parseObjectAt o d key out).1 := by
  unfold Table.parseObjectAt
  split
  · exact h
  · exact h.parseObject hs hu _
  · exact h

theorem ConformsChoice.parseChoiceAt {c : ChoicesPlan} (hs : t.shape p = .choices c)
    (hu : t.UniqueNames p) {out : Choice} (h : t.ConformsChoice c out) (d : Dict Value) (key : String) :
    t.ConformsChoice c (t.parseChoiceAt c d key out).1 := by
  unfold Table.parseChoiceAt
  split
  · exact h
  · exact conformsChoice_populateChoice hs hu none _

end Table

/-! ## Operations of types -/

theorem Codec.fresh_eq_ok_iff {c : Codec} {σ : Type} {r : Outcome σ} {s : σ} :
    c.fresh r = .ok s ↔ r.result? = some s := by
  rw [fresh, mapError_eq_ok_iff, ← toOption_eq_some_iff]
  rfl

theorem ObjectType.ofDict_eq_ok_iff {t : ObjectType} {d : Dict Value} {x : Object} :
    t.ofDict d = .ok x ↔ t.require .fromValue = .ok () ∧ t.table.readObject? t.plan d = some x := by
  rw [ofDict, Codec.bind_eq_ok_iff, ← Table.result?_populateObject_new, new]
  simp only [Codec.fresh_eq_ok_iff]
  exact ⟨fun ⟨_, h⟩ => h, fun h => ⟨(), h⟩⟩

/-! ## Types given by their entries -/

/-- A type of a codec as its entry gives it, whatever the shape of the entry. -/
structure EntryType where
  codec : Codec
  id : Nat
  name : String

namespace EntryType

variable {t : EntryType} {α : Type} {wrap : α → Data} {read : Value → Except CodecError α}
  {write : α → Except CodecError Value}

def require (t : EntryType) (op : Operation) : Except CodecError Unit := t.codec.require t.id t.name op

/-- The plan of the entry, as what `Table.convert` and `Table.serialize` are told. -/
def plan (t : EntryType) : Plan := .named t.id

def ofValue (t : EntryType) (v : Value) : Except CodecError Data := do
  t.require .fromValue
  (t.codec.table.convert t.plan none v).mapError t.codec.failed

def toValue (t : EntryType) (x : Data) : Except CodecError Value := do
  t.require .toValue
  (t.codec.table.serialize t.plan x t.name).mapError .wrongInstance

/-- Instances in `α` that are read and written as data is by `EntryType.ofValue` and
`EntryType.toValue`, where `wrap` makes data of them. -/
structure Presents (t : EntryType) (wrap : α → Data) (read : Value → Except CodecError α)
    (write : α → Except CodecError Value) : Prop where
  injective : Function.Injective wrap
  map_read : ∀ v, (read v).map wrap = t.ofValue v
  write_eq : ∀ x, write x = t.toValue (wrap x)

theorem ofValue_eq_ok_iff {v : Value} {x : Data} :
    t.ofValue v = .ok x ↔ t.require .fromValue = .ok () ∧ t.codec.table.read? t.plan v = some x := by
  rw [ofValue, Codec.bind_eq_ok_iff]
  simp only [Codec.mapError_eq_ok_iff, Table.convert_eq_ok_iff]
  exact ⟨fun ⟨_, h⟩ => h, fun h => ⟨(), h⟩⟩

theorem toValue_eq_ok_iff {x : Data} {w : Value} :
    t.toValue x = .ok w ↔ t.require .toValue = .ok () ∧ t.codec.table.write? t.plan x = some w := by
  rw [toValue, Codec.bind_eq_ok_iff]
  simp only [Codec.mapError_eq_ok_iff, Table.serialize_eq_ok_iff]
  exact ⟨fun ⟨_, h⟩ => h, fun h => ⟨(), h⟩⟩

/-- Whatever the entry reads is the data of an instance that `read` gives. -/
theorem Presents.ofValue_eq_ok (h : t.Presents wrap read write) {v : Value} {x : Data}
    (hx : t.ofValue v = .ok x) : ∃ a, read v = .ok a ∧ wrap a = x := by
  rw [← h.map_read] at hx
  cases hr : read v with
  | error e =>
    rw [hr] at hx
    cases hx
  | ok a =>
    rw [hr] at hx
    exact ⟨a, rfl, Except.ok.inj hx⟩

theorem Presents.read_eq_ok_iff (h : t.Presents wrap read write) {v : Value} {a : α} :
    read v = .ok a ↔
      t.require .fromValue = .ok () ∧ t.codec.table.read? t.plan v = some (wrap a) := by
  rw [← ofValue_eq_ok_iff]
  constructor
  · intro ha
    rw [← h.map_read, ha]
    rfl
  · intro ha
    obtain ⟨b, hb, hwrap⟩ := h.ofValue_eq_ok ha
    rw [hb, h.injective hwrap]

theorem Presents.write_eq_ok_iff (h : t.Presents wrap read write) {a : α} {w : Value} :
    write a = .ok w ↔ t.require .toValue = .ok () ∧ t.codec.table.write? t.plan (wrap a) = some w := by
  rw [h.write_eq, toValue_eq_ok_iff]

end EntryType

namespace ObjectType

variable {t : ObjectType}

def entry (t : ObjectType) : EntryType := ⟨t.codec, t.id, t.name⟩

theorem presents (hs : t.table.shape (.named t.id) = .object t.plan) :
    t.entry.Presents .object t.ofValue t.toValue where
  injective _ _ h := Data.object.inj h
  map_read v := by
    have hconvert : t.entry.ofValue v = (t.require .fromValue >>= fun _ =>
        (t.table.convert (.named t.id) none v).mapError t.codec.failed) := rfl
    rw [hconvert, Table.convert_object hs, ofValue]
    cases t.require .fromValue with
    | error e => rfl
    | ok =>
      cases v with
      | dict d => exact map_mapError (t.table.populateObject t.plan d t.new).toExcept _ _
      | null | bool | int | double | string | binary | list => rfl
  write_eq x := by
    have hserialize : t.entry.toValue (.object x) = (t.require .toValue >>= fun _ =>
        (t.table.serialize (.named t.id) (.object x) t.name).mapError .wrongInstance) := rfl
    rw [hserialize, Table.serialize_object hs, toValue, toDict]
    cases t.require .toValue with
    | error e => rfl
    | ok => exact map_mapError (t.table.serializeObject t.plan x t.name) _ _

end ObjectType

namespace ChoicesType

variable {t : ChoicesType}

def entry (t : ChoicesType) : EntryType := ⟨t.codec, t.id, t.name⟩

theorem presents (hs : t.table.shape (.named t.id) = .choices t.plan) :
    t.entry.Presents .choice t.ofValue t.toValue where
  injective _ _ h := Data.choice.inj h
  map_read v := by
    have hconvert : t.entry.ofValue v = (t.require .fromValue >>= fun _ =>
        (t.table.convert (.named t.id) none v).mapError t.codec.failed) := rfl
    rw [hconvert, Table.convert_choices hs, ofValue, Table.populateChoice]
    cases t.require .fromValue with
    | error e => rfl
    | ok => cases t.table.convertChoice t.plan none v <;> rfl
  write_eq x := by
    have hserialize : t.entry.toValue (.choice x) = (t.require .toValue >>= fun _ =>
        (t.table.serialize (.named t.id) (.choice x) t.name).mapError .wrongInstance) := rfl
    rw [hserialize, Table.serialize_choices hs]
    rfl

end ChoicesType

/-! ## Types, functions and events of a codec -/

/-- Data that has been read: it `Conforms`, has `Settled` its choices, and can be written. -/
structure Table.Complete (t : Table) (p : Plan) (x : Data) : Prop where
  conforms : t.Conforms p x
  settled : x.Settled
  writes : ∀ place, ∃ w, t.serialize p x place = .ok w

theorem Table.Complete.of_settled {t : Table} {p : Plan} {x : Data} (h : t.Conforms p x)
    (hs : x.Settled) : t.Complete p x := by
  obtain ⟨w, hw⟩ := exists_write? h hs
  exact ⟨h, hs, fun place => ⟨w, serialize_eq_ok_iff.mpr hw⟩⟩

theorem Table.complete_of_read? {t : Table} {p : Plan} {v : Value} {x : Data} (hu : t.UniqueNames p)
    (h : t.read? p v = some x) : t.Complete p x :=
  .of_settled (conforms_of_read? hu h) (settled_of_read? h)

/-- An object that conforms to the plan of its entry. -/
def ObjectType.Conforms (t : ObjectType) (x : Object) : Prop :=
  t.table.Conforms (.named t.id) (.object x)

/-- A choice that conforms to the plan of its entry. -/
def ChoicesType.Conforms (t : ChoicesType) (x : Choice) : Prop :=
  t.table.Conforms (.named t.id) (.choice x)

/-- The objects that a type makes conform, those that are read are `Complete`, and those it reads
over stay conforming. -/
structure ObjectType.Sound (t : ObjectType) : Prop where
  new : t.Conforms t.new
  ofValue : ∀ v x, t.ofValue v = .ok x → t.table.Complete (.named t.id) (.object x)
  ofDict : ∀ d x, t.ofDict d = .ok x → t.table.Complete (.named t.id) (.object x)
  parse : ∀ d x, t.parse d = .ok x → t.Conforms x
  populate : ∀ v out, t.Conforms out → t.Conforms (t.populate v out).1
  populateDict : ∀ d out, t.Conforms out → t.Conforms (t.populateDict d out).1
  parseAt : ∀ d key out errors r, t.Conforms out → t.parseAt d key out errors = .ok r → t.Conforms r.2.1

/-- The same as `ObjectType.Sound` for the choices of a type. -/
structure ChoicesType.Sound (t : ChoicesType) : Prop where
  new : t.Conforms t.new
  ofValue : ∀ v x, t.ofValue v = .ok x → t.table.Complete (.named t.id) (.choice x)
  populate : ∀ v out, t.Conforms out → t.Conforms (t.populate v out).1
  parseAt : ∀ d key out errors r, t.Conforms out → t.parseAt d key out errors = .ok r → t.Conforms r.2.1

theorem ObjectType.sound {t : ObjectType} (hs : t.table.shape (.named t.id) = .object t.plan)
    (hu : t.table.UniqueNames (.named t.id)) : t.Sound where
  new := (Table.conforms_object_iff hs).mpr (Table.conformsObject_new hs hu)
  ofValue v x h := Table.complete_of_read? hu ((presents hs).read_eq_ok_iff.mp h).2
  ofDict d x h := by
    refine Table.complete_of_read? (v := .dict d) hu ?_
    rw [Table.read?_object hs, Value.dict?, Option.bind_some, (ofDict_eq_ok_iff.mp h).2,
      Option.map_some]
  parse d x h := by
    have hx := (Table.conformsObject_new hs hu).parseObject hs hu d
    unfold ObjectType.parse at h
    split at h
    · rename_i y hy
      cases h
      rw [← new, hy] at hx
      exact (Table.conforms_object_iff hs).mpr hx
    · cases h
  populate v out h := by
    unfold ObjectType.populate
    split
    · exact h
    · split
      · exact h
      · rw [Conforms, Table.conforms_object_iff hs] at h ⊢
        exact h.populateObject hs hu _
  populateDict d out h := by
    unfold ObjectType.populateDict
    split
    · exact h
    · rw [Conforms, Table.conforms_object_iff hs] at h ⊢
      exact h.populateObject hs hu d
  parseAt d key out errors r h hr := by
    rw [Conforms, Table.conforms_object_iff hs] at h ⊢
    have hx := h.parseObjectAt hs hu d key
    obtain ⟨-, -, hr⟩ := Codec.bind_eq_ok_iff.mp hr
    split at hr <;> rename_i hy <;> cases hr <;> rw [hy] at hx <;> exact hx

theorem ChoicesType.sound {t : ChoicesType} (hs : t.table.shape (.named t.id) = .choices t.plan)
    (hu : t.table.UniqueNames (.named t.id)) : t.Sound where
  new := (Table.conforms_choice_iff hs).mpr (Table.conformsChoice_newChoice _ _)
  ofValue v x h := Table.complete_of_read? hu ((presents hs).read_eq_ok_iff.mp h).2
  populate v out h := by
    unfold ChoicesType.populate
    split
    · exact h
    · rw [Conforms, Table.conforms_choice_iff hs]
      exact Table.conformsChoice_populateChoice hs hu none v
  parseAt d key out errors r h hr := by
    rw [Conforms, Table.conforms_choice_iff hs] at h ⊢
    have hx := h.parseChoiceAt hs hu d key
    obtain ⟨-, -, hr⟩ := Codec.bind_eq_ok_iff.mp hr
    split at hr <;> rename_i hy <;> cases hr <;> rw [hy] at hx <;> exact hx

namespace Codec

variable {c : Codec}

theorem shape_of_object {name : String} {t : ObjectType} (h : c.object name = .ok t) :
    t.codec = c ∧ c.table.shape (.named t.id) = .object t.plan := by
  obtain ⟨id, -, h⟩ := bind_eq_ok_iff.mp h
  split at h
  · cases h
    exact ⟨rfl, ‹_›⟩
  · cases h

theorem shape_of_choices {name : String} {t : ChoicesType} (h : c.choices name = .ok t) :
    t.codec = c ∧ c.table.shape (.named t.id) = .choices t.plan := by
  obtain ⟨id, -, h⟩ := bind_eq_ok_iff.mp h
  split at h
  · cases h
    exact ⟨rfl, ‹_›⟩
  · cases h

theorem shape_of_manifestRoot {t : ObjectType} (h : c.manifestRoot = .ok t) :
    t.codec = c ∧ c.table.shape (.named t.id) = .object t.plan := by
  unfold manifestRoot at h
  split at h
  · cases h
  · split at h
    · cases h
      exact ⟨rfl, ‹_›⟩
    · cases h

theorem mem_values_of_function {name : String} {f : FunctionPlan} (h : c.function name = .ok f) :
    f ∈ c.functions.values := by
  unfold function at h
  split at h
  · cases h
    exact List.mem_map.mpr ⟨_, Dict.mem_of_get? ‹_›, rfl⟩
  · cases h

theorem mem_values_of_event {name : String} {e : EventPlan} (h : c.event name = .ok e) :
    e ∈ c.events.values := by
  unfold event at h
  split at h
  · cases h
    exact List.mem_map.mpr ⟨_, Dict.mem_of_get? ‹_›, rfl⟩
  · cases h

/-- The instances that a codec makes conform, and those it reads over stay so: `ObjectType.Sound`
and `ChoicesType.Sound` of its types, and the same of parameters and results. -/
structure Sound (c : Codec) : Prop where
  object : ∀ name t, c.object name = .ok t → t.Sound
  choices : ∀ name t, c.choices name = .ok t → t.Sound
  manifest : ∀ t, c.manifestRoot = .ok t → t.Sound
  params : ∀ name f args x, c.function name = .ok f → c.readParams f args = .ok x →
    c.table.Complete (.inline (.object f.params)) (.object x)
  results : ∀ name f o, c.function name = .ok f → f.results = some o →
    ∃ x, c.newResults f = .ok x ∧ c.table.Conforms (.inline (.object o)) (.object x)
  event : ∀ name e, c.event name = .ok e →
    c.table.Conforms (.inline (.object e.params)) (.object (c.newEvent e))

/-- A codec that is generated from a registry with `UniqueNames` is `Sound`. -/
theorem sound_of_generate {r : Registry} {settings : Settings} {name : String}
    (h : generate r settings name = .ok c) (hr : r.UniqueNames) : c.Sound where
  object _ t ht := by
    obtain ⟨rfl, hs⟩ := shape_of_object ht
    exact ObjectType.sound hs (uniqueNames_of_generate h hr (Root.entry t.id).mentions)
  choices _ t ht := by
    obtain ⟨rfl, hs⟩ := shape_of_choices ht
    exact ChoicesType.sound hs (uniqueNames_of_generate h hr (Root.entry t.id).mentions)
  manifest t ht := by
    obtain ⟨rfl, hs⟩ := shape_of_manifestRoot ht
    exact ObjectType.sound hs (uniqueNames_of_generate h hr (Root.entry t.id).mentions)
  params _ f args x hf hx := by
    have hs : c.table.shape (.inline (.object f.params)) = .object f.params := by rw [Table.shape]
    have hu := uniqueNames_of_generate h hr (Root.params (mem_values_of_function hf)).mentions
    rw [readParams, mapError_eq_ok_iff] at hx
    refine .of_settled ?_ (Table.settled_of_readArguments hx)
    exact (Table.conforms_object_iff hs).mpr (Table.conformsObject_of_readArguments hs hu hx)
  results _ f o hf ho := by
    have hs : c.table.shape (.inline (.object o)) = .object o := by rw [Table.shape]
    have hu := uniqueNames_of_generate h hr (Root.results (mem_values_of_function hf) ho).mentions
    refine ⟨c.table.newObject o, by rw [newResults, resultsPlan, ho]; rfl, ?_⟩
    exact (Table.conforms_object_iff hs).mpr (Table.conformsObject_new hs hu)
  event _ e he := by
    have hs : c.table.shape (.inline (.object e.params)) = .object e.params := by rw [Table.shape]
    have hu := uniqueNames_of_generate h hr (Root.event (mem_values_of_event he)).mentions
    exact (Table.conforms_object_iff hs).mpr (Table.conformsObject_new hs hu)

end Codec

theorem Codec.sound_of_generate_shop :
    Shop.registry.UniqueNames ∧ ∃ c, generate Shop.registry {} "shop" = .ok c ∧ c.Sound := by
  obtain ⟨c, hc⟩ := Shop.exists_codec
  exact ⟨Shop.uniqueNames, c, hc, sound_of_generate hc Shop.uniqueNames⟩

end Interchange
