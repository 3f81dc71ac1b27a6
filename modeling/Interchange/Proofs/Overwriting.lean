import Interchange.Proofs.Faults
import Interchange.Proofs.Openness
import Interchange.Proofs.Reporting

/-! # Reading over an instance that is in use

Every declared field is written over, so nothing that it held shows in what is read or in the fault
that ends reading (`get?_populateObject`, `ObjectType.Overwrites`). Extra properties are kept and
added to (`AddsTo`).
-/

namespace Interchange

open Plan Populate

/-- Writes slots in turn by `Dict.enter`. -/
def Data.ObjectOf.enter (x : Object) (es : List (String × Option Data)) : Object :=
  { x with fields := x.fields.enter es }

theorem Data.ObjectOf.enter_append (x : Object) (es fs : List (String × Option Data)) :
    x.enter (es ++ fs) = (x.enter es).enter fs := by
  rw [enter, Dict.enter_append]
  rfl

namespace Table

variable {t : Table} {o : ObjectPlan} {q : PropertyPlan} {d : Dict Value} {out : Object}

/-! ## Fields -/

/-- The slots that `resetEnums` empties before anything is read: those of optional enumerations. -/
def resets (t : Table) (ps : List PropertyPlan) : List (String × Option Data) :=
  (ps.filter fun q => q.optional && t.isEnum q.plan).map fun q => (q.name, some (.enumeration .none))

theorem resetEnums_eq (ps : List PropertyPlan) (out : Object) :
    resetEnums t ps out = out.enter (t.resets ps) := by
  induction ps generalizing out with
  | nil => rfl
  | cons q ps ih =>
    rw [resetEnums, List.foldl_cons, resets, List.filter_cons]
    split
    · exact ih _
    · exact ih _

/-- What `populateObject` does when all properties are read: it goes on with the extra properties.
-/
def populateRest (t : Table) (o : ObjectPlan) (d : Dict Value) (out : Object) : Outcome Object :=
  match o.additional with
  | none => .done out
  | some a =>
    match t.shape a with
    | .any => .done (mergeAny out d)
    | _ => t.populateExtras a d.entries out

theorem populateObject_eq (o : ObjectPlan) (d : Dict Value) (out : Object) :
    t.populateObject o d out =
      (t.populateEach (sources o d) (out.enter (t.resets o.properties))).andThen
        (t.populateRest o d) := by
  rw [populateObject, populateProperties_eq, resetEnums_eq]
  rfl

theorem populateEach_enter {qs : List (PropertyPlan × Option Value)} {slots : List (Option Data)}
    (h : t.readSlots? qs = some slots) (es : List (String × Option Data)) (out : Object) :
    t.populateEach qs (out.enter es) = (out.enter (es ++ named qs slots), none) := by
  rw [populateEach_of_some h, Data.ObjectOf.enter_append]
  rfl

theorem populateObject_of_readSlots? {slots : List (Option Data)}
    (h : t.readSlots? (sources o d) = some slots) (out : Object) :
    t.populateObject o d out =
      t.populateRest o d (out.enter (t.resets o.properties ++ named (sources o d) slots)) := by
  rw [populateObject_eq, populateEach_enter h]
  rfl

theorem exists_readSlots?_of_populateEach {qs : List (PropertyPlan × Option Value)}
    (h : (t.populateEach qs out).2 = none) : ∃ slots, t.readSlots? qs = some slots := by
  cases hs : t.readSlots? qs with
  | some slots => exact ⟨slots, rfl⟩
  | none =>
    obtain ⟨f, hf⟩ := populateEach_of_none hs out
    rw [h] at hf
    cases hf

theorem exists_readSlots?_of_populateObject (h : (t.populateObject o d out).2 = none) :
    ∃ slots, t.readSlots? (sources o d) = some slots := by
  rw [populateObject_eq, Outcome.snd_andThen, Option.or_eq_none_iff] at h
  exact exists_readSlots?_of_populateEach h.1

/-! ## Extra properties -/

theorem populateRest_closed (h : o.additional = none) (d : Dict Value) (out : Object) :
    t.populateRest o d out = .done out := by
  simp only [populateRest, h]

theorem populateRest_any {a : Plan} (h : o.additional = some a) (hs : t.shape a = .any) (d : Dict Value)
    (out : Object) : t.populateRest o d out = .done (mergeAny out d) := by
  simp only [populateRest, h, hs]

theorem populateRest_typed {a : Plan} (h : o.additional = some a) (hs : t.shape a ≠ .any) (d : Dict Value)
    (out : Object) : t.populateRest o d out = t.populateExtras a d.entries out := by
  simp only [populateRest, h]

theorem fields_populateExtras (a : Plan) (es : List (String × Value)) (out : Object) :
    (t.populateExtras a es out).1.fields = out.fields := by
  induction es generalizing out with
  | nil =>
    rw [populateExtras]
    rfl
  | cons e es ih =>
    obtain ⟨k, v⟩ := e
    rw [populateExtras]
    cases t.convert a (some k) v with
    | error f => rfl
    | ok x => exact ih (putTyped out k x)

theorem fields_populateRest (o : ObjectPlan) (d : Dict Value) (out : Object) :
    (t.populateRest o d out).1.fields = out.fields := by
  rw [populateRest]
  split
  · rfl
  · split
    · rfl
    · exact fields_populateExtras _ _ out

/-- Where a run meets no fault, declared fields do not tell over which instance it went. -/
theorem get?_populateObject (h : (t.populateObject o d out).2 = none) (other : Object)
    (hq : q ∈ o.properties) :
    (t.populateObject o d out).1.fields.get? q.name =
      (t.populateObject o d other).1.fields.get? q.name := by
  obtain ⟨slots, hs⟩ := exists_readSlots?_of_populateObject h
  have hmem : q.name ∈ (t.resets o.properties ++ named (sources o d) slots).map (·.1) := by
    rw [List.map_append, map_fst_named (readSlots?_length hs), map_name_sources]
    exact List.mem_append_right _ (List.mem_map.mpr ⟨q, hq, rfl⟩)
  rw [populateObject_of_readSlots? hs, populateObject_of_readSlots? hs, fields_populateRest,
    fields_populateRest]
  exact Dict.get?_enter_congr hmem out.fields other.fields

/-- What a dictionary makes of extra properties: it is merged into untyped ones by `Value.merge`,
and its entries are read and written over typed ones. -/
structure AddsTo (t : Table) (o : ObjectPlan) (d : Dict Value) (old new : Extras) : Prop where
  closed : o.additional = none → new = old
  any : ∀ a m, o.additional = some a → t.shape a = .any → old = .any m → new = .any (Value.merge m d)
  typed : ∀ a m, o.additional = some a → t.shape a ≠ .any → old = .typed m →
    ∃ xs, List.Forall₂ (fun e x => x.1 = e.1 ∧ t.convert a (some e.1) e.2 = .ok x.2) d.entries xs ∧
      new = .typed (m.enter xs)

theorem forall₂_of_readEntries? {a : Plan} {es : List (String × Value)} {xs : List (String × Data)}
    (h : t.readEntries? a es = some xs) :
    List.Forall₂ (fun e x => x.1 = e.1 ∧ t.convert a (some e.1) e.2 = .ok x.2) es xs := by
  refine (mapM_eq_some_iff.mp h).imp fun e x hx => ?_
  obtain ⟨y, hy, rfl⟩ := Option.map_eq_some_iff.mp hx
  exact ⟨rfl, convert_eq_ok_iff.mpr hy⟩

theorem addsTo_populateRest {s out' : Object} (h : t.populateRest o d s = (out', none)) :
    t.AddsTo o d s.extras out'.extras where
  closed ha := by
    rw [populateRest_closed ha] at h
    cases h
    rfl
  any a m ha hs hm := by
    rw [populateRest_any ha hs] at h
    cases h
    rw [mergeAny, hm]
    rfl
  typed a m ha hs hm := by
    rw [populateRest_typed ha hs, ← Outcome.result?_eq_some_iff, result?_populateExtras hm] at h
    obtain ⟨xs, hxs, rfl⟩ := Option.map_eq_some_iff.mp h
    exact ⟨xs, forall₂_of_readEntries? hxs, rfl⟩

theorem addsTo_populateObject {out' : Object} (h : t.populateObject o d out = (out', none)) :
    t.AddsTo o d out.extras out'.extras := by
  obtain ⟨slots, hs⟩ := exists_readSlots?_of_populateObject (congrArg Prod.snd h)
  rw [populateObject_of_readSlots? hs] at h
  exact addsTo_populateRest (s := out.enter _) h

end Table

/-! ## Object types -/

theorem Codec.fresh_eq_error_iff {c : Codec} {σ : Type} {r : Outcome σ} {e : CodecError} :
    c.fresh r = .error e ↔ (c.outcome r).2 = some e := by
  obtain ⟨s, f⟩ := r
  cases f with
  | none => simp [fresh, outcome, Outcome.toExcept, Except.mapError]
  | some f => simp [fresh, outcome, Outcome.toExcept, Except.mapError]

namespace ObjectType

variable {t : ObjectType}

/-- Reading over an object of a type (`populateDict`) goes as reading a new one (`ofDict`), whatever
the object holds. -/
structure Overwrites (t : ObjectType) : Prop where
  together : t.operations.has .populate = t.operations.has .fromValue
  refused : t.operations.has .populate = false → ∀ d out,
    t.populateDict d out = (out, some (.notGenerated t.name "Populate")) ∧
      t.ofDict d = .error (.notGenerated t.name "FromValue")
  fails : t.operations.has .populate = true → ∀ d out e,
    (t.populateDict d out).2 = some e ↔ t.ofDict d = .error e
  reads : t.operations.has .populate = true → ∀ d out out', t.populateDict d out = (out', none) →
    ∃ x, t.ofDict d = .ok x ∧
      (∀ q ∈ t.plan.properties, out'.fields.get? q.name = x.fields.get? q.name) ∧
      t.table.AddsTo t.plan d out.extras out'.extras

theorem populateDict_of_has (h : t.operations.has .populate = true) (d : Dict Value) (out : Object) :
    t.populateDict d out = t.codec.outcome (t.table.populateObject t.plan d out) := by
  rw [populateDict_eq, require, Codec.require_eq_ok h]
  rfl

theorem populateDict_of_not_has (h : t.operations.has .populate = false) (d : Dict Value) (out : Object) :
    t.populateDict d out = (out, some (.notGenerated t.name "Populate")) := by
  rw [populateDict_eq, require, Codec.require_eq_error h]
  rfl

theorem ofDict_of_has (h : t.operations.has .fromValue = true) (d : Dict Value) :
    t.ofDict d = t.codec.fresh (t.table.populateObject t.plan d t.new) := by
  rw [ofDict, require, Codec.require_eq_ok h]
  rfl

theorem ofDict_of_not_has (h : t.operations.has .fromValue = false) (d : Dict Value) :
    t.ofDict d = .error (.notGenerated t.name "FromValue") := by
  rw [ofDict, require, Codec.require_eq_error h]
  rfl

theorem overwrites_of_together (h : t.operations.has .populate = t.operations.has .fromValue) :
    t.Overwrites where
  together := h
  refused hp d out := ⟨populateDict_of_not_has hp d out, ofDict_of_not_has (h ▸ hp) d⟩
  fails hp d out e := by
    rw [populateDict_of_has hp, ofDict_of_has (h ▸ hp), Codec.fresh_eq_error_iff, Codec.outcome,
      Codec.outcome, Table.snd_populateObject, Table.snd_populateObject]
  reads hp d out out' hout := by
    rw [populateDict_of_has hp, Codec.outcome, Prod.mk.injEq, Option.map_eq_none_iff] at hout
    obtain ⟨rfl, hf⟩ := hout
    have hnew : (t.table.populateObject t.plan d t.new).2 = none := by
      rw [← hf, Table.snd_populateObject, Table.snd_populateObject]
    refine ⟨(t.table.populateObject t.plan d t.new).1, ?_, fun q hq => ?_, ?_⟩
    · rw [ofDict_of_has (h ▸ hp), Codec.fresh_eq_ok_iff, Outcome.result?_eq_some_iff]
      exact Prod.ext rfl hnew
    · exact Table.get?_populateObject hf t.new hq
    · exact Table.addsTo_populateObject (Prod.ext rfl hf)

end ObjectType

theorem Table.lt_size_of_shape {t : Table} {id : Nat} {o : ObjectPlan}
    (h : t.shape (.named id) = .object o) : id < t.size := by
  refine Nat.lt_of_not_le fun hle => ?_
  rw [shape, plan, planAt_of_le hle, shape] at h
  cases h

/-- Of an entry that is an object `manifestMarks` asks only that it can be parsed. -/
theorem Table.eq_of_mem_manifestMarks {t : Table} {root : Nat} {marks : Table.Marks}
    (h : t.manifestMarks root = .ok marks) {m : Nat × Operations} (hm : m ∈ marks) {o : ObjectPlan}
    (hs : t.shape (.named m.1) = .object o) : m.2 = { parse := true } := by
  cases hroot : t.shape (.named root) with
  | object o' =>
    by_cases hbad : ∃ q, t.ReachesProperty o' q ∧ (t.shape q.plan).tag.isUnreadable = true
    · obtain ⟨_, _, _, _, _, herror⟩ := manifestMarks_of_unreadable hroot hbad
      rw [h] at herror
      cases herror
    · have hgood : ∀ q, t.ReachesProperty o' q → (t.shape q.plan).tag.isUnreadable = false := by
        intro q hq
        exact Bool.eq_false_iff.mpr fun hu => hbad ⟨q, hq, hu⟩
      rw [manifestMarks_of_readable hroot hgood] at h
      cases h
      rcases List.mem_cons.mp hm with rfl | hm
      · rfl
      · obtain ⟨q, -, htarget, hneeds⟩ := (mem_flatMap_marksOf_iff hroot).mp hm
        rw [shape, plan_of_target? htarget, shape] at hs
        rw [hs] at hneeds
        exact (Option.some.inj hneeds).symm
  | _ =>
    simp only [manifestMarks, hroot] at h
    cases h
    cases hm

namespace Codec

open Schema

variable {r : Registry} {settings : Settings} {name : String} {c : Codec}

/-- Objects that can be read over can be read, and the other way round. -/
theorem has_populate_eq_has_fromValue (h : generate r settings name = .ok c) {id : Nat} {o : ObjectPlan}
    (hs : c.table.shape (.named id) = .object o) :
    (c.operationsAt id).has .populate = (c.operationsAt id).has .fromValue := by
  obtain ⟨x, marks, -, hmarks, rfl⟩ := generate_eq_ok_iff.mp h
  have hid : id < x.table.size := Table.lt_size_of_shape hs
  have hmark : ∀ m ∈ (typeIds r x.ns x.table).zip (x.origins.map .ofOrigin) ++ marks, m.1 = id →
      m.2.has .populate = m.2.has .fromValue := by
    intro m hm hmid
    rcases List.mem_append.mp hm with hm | hm
    · -- An origin allows both or neither.
      obtain ⟨origin, -, horigin⟩ := List.mem_map.mp (List.of_mem_zip hm).2
      rw [← horigin]
      rfl
    · rw [Draft.marks] at hmarks
      split at hmarks
      · cases hmarks
        cases hm
      · subst hmid
        rw [Table.eq_of_mem_manifestMarks hmarks hm hs]
        rfl
  rw [Bool.eq_iff_iff, operationsAt]
  change ((operationsOf _ _).getD id {}).has _ = true ↔ ((operationsOf _ _).getD id {}).has _ = true
  rw [has_operationsOf hid, has_operationsOf hid]
  refine exists_congr fun m => and_congr_right fun hm => and_congr_right fun hmid => ?_
  rw [hmark m hm hmid]

/-- Every object type of a codec, the root of the manifest included, is read over as it is read. -/
structure Overwrites (c : Codec) : Prop where
  object : ∀ type t, c.object type = .ok t → t.Overwrites
  manifest : ∀ t, c.manifestRoot = .ok t → t.Overwrites

theorem overwrites_of_generate (h : generate r settings name = .ok c) : c.Overwrites where
  object type t ht := by
    obtain ⟨rfl, hs⟩ := shape_of_object ht
    exact ObjectType.overwrites_of_together (has_populate_eq_has_fromValue h hs)
  manifest t ht := by
    obtain ⟨rfl, hs⟩ := shape_of_manifestRoot ht
    exact ObjectType.overwrites_of_together (has_populate_eq_has_fromValue h hs)

end Codec

namespace Forest

theorem exists_compiled : ∃ c, Codec.generate registry {} "forest" = .ok c ∧
    Codec.Compiled registry forest c :=
  Codec.exists_compiled exists_codec rfl nodup_registrationKeys

/-- A node can neither be read nor be read over, and either call is refused under a name of its own.
-/
theorem not_alike_node : ∃ c t, Codec.generate registry {} "forest" = .ok c ∧ c.object "Node" = .ok t ∧
    t.populateDict ∅ t.new = (t.new, some (.notGenerated "Node" "Populate")) ∧
    t.ofDict ∅ = .error (.notGenerated "Node" "FromValue") := by
  obtain ⟨c, hgen, hc⟩ := exists_compiled
  have he : ("Node", node) ∈ forest.types.entries := List.mem_of_getElem? (i := 1) rfl
  obtain ⟨t, ht, -, hops, hplan⟩ := hc.exists_objectType rfl he
  have hname : t.name = "Node" := congrArg Plan.ObjectOf.name (ShapeOf.object.inj (Plan.inline.inj hplan))
  refine ⟨c, t, hgen, ht, ?_, ?_⟩
  · rw [ObjectType.populateDict_of_not_has (by rw [hops]; rfl), hname]
  · rw [ObjectType.ofDict_of_not_has (by rw [hops]; rfl), hname]

end Forest

/-- An entry that is in use. -/
def Journal.used : Object := ⟨⟨[("count", some (.int64 9))]⟩, .any ⟨[("x", .int 7), ("y", .int 2)]⟩⟩

/-- The old count is lost, and what the entry had beside it is merged. -/
theorem Codec.overwrites_of_generate_journal : ∃ c t out x,
    generate Journal.registry {} "journal" = .ok c ∧ c.object "Entry" = .ok t ∧
    t.populateDict Journal.counted Journal.used = (out, none) ∧ t.ofDict Journal.counted = .ok x ∧
    out.fields.get? "count" = x.fields.get? "count" ∧
    out.extras = .any (Value.merge ⟨[("x", .int 7), ("y", .int 2)]⟩ Journal.counted) := by
  obtain ⟨c, hgen, hc⟩ := Journal.exists_compiled
  obtain ⟨t, ht, hops, hplan⟩ := Journal.exists_entry hc
  obtain ⟨x, hread⟩ := Journal.exists_read_counted hplan
  have hpop : t.operations.has .populate = true := by rw [hops]; rfl
  have hx : t.ofDict Journal.counted = .ok x :=
    ObjectType.ofDict_eq_ok_iff.mpr
      ⟨require_eq_ok (by rw [← ObjectType.operations, hops]; rfl) t.name, hread⟩
  have hover := (overwrites_of_generate hgen).object "Entry" t ht
  have hnone : (t.populateDict Journal.counted Journal.used).2 = none := by
    rw [Option.eq_none_iff_forall_ne_some]
    intro e he
    rw [hover.fails hpop, hx] at he
    cases he
  obtain ⟨x', hx', hfields, hextras⟩ :=
    hover.reads hpop Journal.counted Journal.used _ (Prod.ext rfl hnone)
  rw [hx] at hx'
  cases hx'
  refine ⟨c, t, _, x, hgen, ht, Prod.ext rfl hnone, hx, ?_, ?_⟩
  · exact hfields ⟨"count", false, .inline .int64⟩ (by rw [hplan]; exact List.mem_singleton.mpr rfl)
  · exact hextras.any (.inline .any) _ (by rw [hplan]) (Journal.shape_any t.table) rfl

end Interchange
