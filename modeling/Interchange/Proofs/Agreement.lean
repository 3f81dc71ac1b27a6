import Interchange.Proofs.Location
import Interchange.Proofs.Offering

/-! # What a manifest is read as

Objects in a manifest are entered key by key, while everything else is read as a whole. This makes
no difference to what is read (`toOption_parseValue`), or to the property at which reading stops
(`stopsAt_parseObject_iff_populateObject`), as long as no object takes additional properties
(`Plain`).
-/

namespace Interchange

open Plan Schema

namespace Table

variable {t : Table} {q : PropertyPlan} {o o' : ObjectPlan} {d : Dict Value} {out : Object}

/-! ## Manifests and instances -/

/-- Neither the object nor one that it reaches takes additional properties, or has a property that
takes values without looking at them (`ignores`). -/
def Plain (t : Table) (o : ObjectPlan) : Prop :=
  ∀ o', t.Reaches o o' → o'.additional = none ∧ ∀ q ∈ o'.properties, t.ignores q = false

theorem Plain.property (h : t.Plain o) (hq : q ∈ o.properties) (hs : t.shape q.plan = .object o') :
    t.Plain o' :=
  fun o'' hreach => h o'' (hreach.head ⟨q, hq, hs⟩)

theorem readSlot?_of_not_ignores (h : t.ignores q = false) (v : Value) :
    t.readSlot? q (some v) = (t.read? q.plan v).map some := by
  simp only [readSlot?, h, Bool.false_eq_true, if_false]

/-- The object that `parseObject` has read from a manifest, if there is no fault. -/
def parsed? : Object × Option ManifestFault → Option Object
  | (x, none) => some x
  | (_, some _) => none

/-- If each value is read from a manifest as it is read otherwise, so are all of them in turn. -/
theorem parsed?_parseProperties {ps : List PropertyPlan} (hi : ∀ q ∈ ps, t.ignores q = false)
    (hv : ∀ q ∈ ps, ∀ v, d.get? q.name = some v → (t.parseValue q v).toOption = t.read? q.plan v)
    (out : Object) : parsed? (t.parseProperties ps d out) =
      (t.populateEach (ps.map fun q => (q, d.get? q.name)) out).result? := by
  induction ps generalizing out with
  | nil =>
    rw [parseProperties]
    rfl
  | cons q ps ih =>
    rw [List.forall_mem_cons] at hi hv
    rw [List.map_cons, populateEach, Outcome.result?_andThen]
    cases hg : d.get? q.name with
    | none =>
      rw [parseProperties_of_none hg, populateProperty]
      cases q.optional with
      | true => exact ih hi.2 hv.2 _
      | false => rfl
    | some v =>
      have hread := hv.1 v hg
      cases hx : t.parseValue q v with
      | ok x =>
        rw [hx, toOption_ok] at hread
        have hslot : t.readSlot? q (some v) = some (some x) := by
          rw [readSlot?_of_not_ignores hi.1, ← hread, Option.map_some]
        rw [parseProperties_of_ok hg hx, populateProperty_of_some hslot]
        exact ih hi.2 hv.2 _
      | error f =>
        rw [hx, toOption_error] at hread
        have hslot : t.readSlot? q (some v) = none := by
          rw [readSlot?_of_not_ignores hi.1, ← hread, Option.map_none]
        obtain ⟨f', hf'⟩ := populateProperty_of_none hslot out
        rw [parseProperties_of_error hg hx, parsed?, Outcome.result?, Outcome.toExcept, hf']
        rfl

theorem parsed?_parseObject (h : t.Plain o)
    (hv : ∀ q ∈ o.properties, ∀ v, d.get? q.name = some v → (t.parseValue q v).toOption = t.read? q.plan v) :
    parsed? (t.parseObject o d (t.newObject o)) = t.readObject? o d := by
  obtain ⟨hadditional, hi⟩ := h o .refl
  rw [parseObject, parsed?_parseProperties hi hv, result?_populateEach, readObject?, ← sources]
  cases hs : t.readSlots? (sources o d) with
  | none => rfl
  | some slots =>
    rw [Option.map_some, Option.bind_some, readExtras?, hadditional, Option.map_some,
      enter_newObject (d := (t.newObject o).fields) (map_name_sources o d) (readSlots?_length hs)
        (Dict.distinct_ofList _) rfl, newObject, newExtras, hadditional]

/-- What a manifest holds is what `read?` yields. The induction is on the value: an object is
entered key by key, and everything else is left to reading. -/
theorem toOption_parseValue (hq : ∀ o, t.shape q.plan = .object o → t.Plain o) (v : Value) :
    (t.parseValue q v).toOption = t.read? q.plan v := by
  induction v using Value.part_induction generalizing q with
  | step v ih =>
    by_cases ho : ∃ o, t.shape q.plan = .object o
    · obtain ⟨o, hs⟩ := ho
      rw [read?_object hs]
      cases v with
      | dict d =>
        have hplain := hq o hs
        have hrun := parsed?_parseObject (d := d) hplain fun q' hq' v hv =>
          ih v (.of_get? hv) fun o' hs' => hplain.property hq' hs'
        rw [parseValue_dict hs, Value.dict?, Option.bind_some, ← hrun, parseObject]
        obtain ⟨child, fault⟩ := t.parseProperties o.properties d (t.newObject o)
        cases fault <;> rfl
      | null | bool | int | double | string | binary | list =>
        rw [parseValue.eq_def, hs]
        rfl
    · exact toOption_parseValue_whole fun o hs => ho ⟨o, hs⟩

/-- Of an object that is `Plain` a manifest takes what is read. -/
theorem takesSlot_iff (h : t.Plain o) (hq : q ∈ o.properties) (u : Option Value) :
    t.TakesSlot q u ↔ (t.readSlot? q u).isSome = true := by
  cases u with
  | none =>
    rw [TakesSlot, readSlot?]
    cases q.optional <;> simp
  | some v =>
    have hread := toOption_parseValue (fun o' hs => h.property hq hs) v
    have hparsed := t.valueParsed q v
    rw [readSlot?_of_not_ignores ((h o .refl).2 q hq), Option.isSome_map, ← hread, TakesSlot]
    cases hx : t.parseValue q v with
    | ok x =>
      rw [hx] at hparsed
      cases hparsed with
      | accepted h => exact ⟨fun _ => rfl, fun _ => h⟩
    | error f =>
      rw [hx] at hparsed
      have hrefused : ¬ t.Takes q.plan v := by
        cases hparsed with
        | refused _ h => exact h
        | inside hs hv _ h =>
          rw [hv, takes_dict_iff hs]
          exact h.not_takesDict
      exact ⟨fun h => absurd h hrefused, fun h => by cases h⟩

theorem parseObject_snd_eq_none_iff : (t.parseObject o d out).2 = none ↔ t.TakesDict o d := by
  have hrun := t.dictParsed o d out
  generalize (t.parseObject o d out).2 = fault at hrun ⊢
  cases hrun with
  | accepted h => exact iff_of_true rfl h
  | faulty _ h => exact iff_of_false (Option.some_ne_none _) h.not_takesDict

theorem Outcome.snd_eq_none_iff {σ : Type} {r : Outcome σ} : r.2 = none ↔ r.result?.isSome = true := by
  obtain ⟨s, fault⟩ := r
  cases fault <;> simp

theorem populateObject_snd_eq_none_iff (h : o.additional = none) : (t.populateObject o d out).2 = none ↔
    ∀ q ∈ o.properties, (t.readSlot? q (d.get? q.name)).isSome = true := by
  rw [Outcome.snd_eq_none_iff, populateObject, h, Outcome.result?_andThen, populateProperties_eq,
    result?_populateEach]
  simp only [Outcome.result?_done, Option.bind_fun_some, Option.isSome_map, readSlots?, isSome_mapM,
    List.forall_mem_map]

end Table

/-! ## Where two runs stop -/

/-- An object with its first properties only. -/
def Plan.ObjectOf.upTo (o : ObjectPlan) (i : Nat) : ObjectPlan := { o with properties := o.properties.take i }

/-- A run over the properties of an object stops at the one with the given number: it gets as far as
that one, and not further. -/
def StopsAt {ε : Type} (run : ObjectPlan → Object × Option ε) (o : ObjectPlan) (i : Nat) : Prop :=
  (run (o.upTo i)).2 = none ∧ (run (o.upTo (i + 1))).2 ≠ none

namespace Table

variable {t : Table} {o : ObjectPlan} {d : Dict Value} {out : Object}

/-- Reading a manifest stops at the first property that `TakesSlot` does not accept. -/
theorem stopsAt_parseObject_iff {before after : List PropertyPlan} {q : PropertyPlan}
    (split : o.properties = before ++ q :: after)
    (accepted : ∀ q' ∈ before, t.TakesSlot q' (d.get? q'.name)) (refused : ¬ t.TakesSlot q (d.get? q.name))
    (j : Nat) : StopsAt (t.parseObject · d out) o j ↔ j = before.length := by
  simp only [StopsAt, ne_eq, parseObject_snd_eq_none_iff, TakesDict, ObjectOf.upTo, split]
  constructor
  · intro h
    obtain ⟨hj, hnext⟩ := h
    apply Nat.le_antisymm
    · apply Nat.le_of_not_lt
      intro hlt
      apply refused
      apply hj
      obtain ⟨k, rfl⟩ : ∃ k, j = before.length + (k + 1) := ⟨j - before.length - 1, by omega⟩
      rw [List.take_length_add_append, List.take_succ_cons]
      exact List.mem_append_right _ List.mem_cons_self
    · apply Nat.le_of_not_lt
      intro hlt
      apply hnext
      intro q' hq'
      rw [List.take_append_of_le_length hlt] at hq'
      exact accepted q' (List.mem_of_mem_take hq')
  · rintro rfl
    rw [List.take_left, List.take_length_add_append, List.take_succ_cons]
    refine ⟨accepted, fun h => refused ?_⟩
    exact h q (List.mem_append_right _ List.mem_cons_self)

/-- Over an object that is `Plain`, reading a manifest and reading an instance stop at the same
property. -/
theorem stopsAt_parseObject_iff_populateObject (h : t.Plain o) (i : Nat) :
    StopsAt (t.parseObject · d out) o i ↔ StopsAt (t.populateObject · d out) o i := by
  have hcut (j : Nat) : (t.parseObject (o.upTo j) d out).2 = none ↔
      (t.populateObject (o.upTo j) d out).2 = none := by
    rw [parseObject_snd_eq_none_iff, populateObject_snd_eq_none_iff (o := o.upTo j) (h o .refl).1]
    refine forall₂_congr fun q hq => ?_
    exact takesSlot_iff h (List.mem_of_mem_take hq) _
  exact and_congr (hcut i) (not_congr (hcut (i + 1)))

end Table

/-- Reading a manifest (`parse`) agrees with reading an instance (`populateObject`). They succeed
for the same dictionaries, with the same object. Where they fail they stop at the same property of
the root, which is the first key of the fault. -/
structure ObjectType.Agrees (t : ObjectType) (d : Dict Value) : Prop where
  ok : ∀ x, t.parse d = .ok x ↔ t.table.populateObject t.plan d t.new = (x, none)
  stops : ∀ i, StopsAt (t.table.parseObject · d t.new) t.plan i ↔
    StopsAt (t.table.populateObject · d t.new) t.plan i
  fault : ∀ f, t.parse d = .error f → ∃ i q, t.plan.properties[i]? = some q ∧
    f.keys.getLast? = some q.name ∧ ∀ j, StopsAt (t.table.parseObject · d t.new) t.plan j ↔ j = i

namespace ObjectType

variable {t : ObjectType} {d : Dict Value}

theorem parse_eq_ok_iff {x : Object} :
    t.parse d = .ok x ↔ Table.parsed? (t.table.parseObject t.plan d t.new) = some x := by
  unfold parse
  generalize t.table.parseObject t.plan d t.new = run
  obtain ⟨y, fault⟩ := run
  cases fault <;> simp [Table.parsed?]

theorem parse_eq_error_iff {f : ManifestFault} :
    t.parse d = .error f ↔ (t.table.parseObject t.plan d t.new).2 = some f := by
  unfold parse
  generalize t.table.parseObject t.plan d t.new = run
  obtain ⟨y, fault⟩ := run
  cases fault <;> simp

theorem agrees_of_plain (h : t.table.Plain t.plan) (d : Dict Value) : t.Agrees d where
  ok x := by
    have hrun := Table.parsed?_parseObject (d := d) h fun q hq v _ =>
      Table.toOption_parseValue (fun o hs => h.property hq hs) v
    rw [parse_eq_ok_iff, ← Outcome.result?_eq_some_iff, new, hrun, Table.result?_populateObject_new]
  stops i := Table.stopsAt_parseObject_iff_populateObject h i
  fault f hf := by
    rw [parse_eq_error_iff] at hf
    have hrun := t.table.dictParsed t.plan d t.new
    rw [hf] at hrun
    cases hrun with
    | faulty _ hat =>
      obtain ⟨before, q, after, rest, split, hpath, accepted, refused⟩ := hat.exists_refused
      refine ⟨before.length, q, ?_, ?_, Table.stopsAt_parseObject_iff split accepted refused⟩
      · rw [split, List.getElem?_append_right (Nat.le_refl _), Nat.sub_self, List.getElem?_cons_zero]
      · rw [← List.head?_reverse, hpath, List.head?_cons]

end ObjectType

namespace Codec

variable {r : Registry} {settings : Settings} {name : String} {c : Codec} {t : ObjectType}

theorem manifest_of_manifestRoot (h : c.manifestRoot = .ok t) : c.manifest = some t.id := by
  unfold manifestRoot at h
  split at h
  · cases h
  · rename_i hid
    split at h
    · cases h
      exact hid
    · cases h

/-- No property that a generated manifest reaches is of a kind that cannot be read from one. -/
theorem readable_of_generate (h : generate r settings name = .ok c) (ht : c.manifestRoot = .ok t)
    {q : PropertyPlan} (hq : t.table.ReachesProperty t.plan q) :
    (t.table.shape q.plan).tag.isUnreadable = false := by
  obtain ⟨d, marks, -, hmarks, rfl⟩ := generate_eq_ok_iff.mp h
  have hroot := manifest_of_manifestRoot ht
  obtain ⟨hcodec, hs⟩ := shape_of_manifestRoot ht
  rw [ObjectType.table, hcodec] at hq ⊢
  obtain ⟨root, hm, hid⟩ := Option.map_eq_some_iff.mp hroot
  rw [Draft.marks, hm] at hmarks
  change d.table.manifestMarks (d.root r) = .ok marks at hmarks
  rw [hid] at hmarks
  cases hbad : (d.table.shape q.plan).tag.isUnreadable with
  | false => exact hbad
  | true =>
    obtain ⟨o, q', -, -, -, herror⟩ := Table.manifestMarks_of_unreadable hs ⟨q, hq, hbad⟩
    cases hmarks.symm.trans herror

/-- Where no object in a manifest takes additional properties, `ObjectType.Agrees` holds of every
dictionary. -/
theorem agrees_of_generate (h : generate r settings name = .ok c) (ht : c.manifestRoot = .ok t)
    (hbare : ∀ o, t.table.Reaches t.plan o → o.additional = none) (d : Dict Value) : t.Agrees d := by
  refine ObjectType.agrees_of_plain (fun o hreach => ⟨hbare o hreach, fun q hq => ?_⟩) d
  have hreadable := readable_of_generate h ht ⟨o, hreach, hq⟩
  rw [Table.ignores, Bool.and_eq_false_iff]
  refine .inr (Bool.eq_false_iff.mpr fun hfun => ?_)
  rw [ShapeOf.isFunction_iff.mp hfun] at hreadable
  cases hreadable

end Codec

/-! ## The extension

No object in it takes additional properties, and one of its actions holds another. -/

theorem Table.Reaches.exists_within {t : Table} {p : Plan} {o o' : ObjectPlan} (h : t.Reaches o o')
    (hs : t.shape p = .object o) : ∃ q, t.Within q p ∧ t.shape q = .object o' := by
  induction h with
  | refl => exact ⟨p, .refl, hs⟩
  | tail _ hheld ih =>
    obtain ⟨q, hwithin, hq⟩ := ih
    obtain ⟨q', hmem, hs'⟩ := hheld
    exact ⟨q'.plan, hwithin.head (Table.part_property hq hmem), hs'⟩

/-- If no object type has additional properties, neither has an object in the manifest. -/
theorem Codec.additional_eq_none_of_generate {r : Registry} {settings : Settings} {name : String}
    {c : Codec} {t : ObjectType} (h : generate r settings name = .ok c) (ht : c.manifestRoot = .ok t)
    (hr : ∀ u ∈ r.types, u.kind.additional? = none) {o : ObjectPlan}
    (hreach : t.table.Reaches t.plan o) : o.additional = none := by
  obtain ⟨ns, hc⟩ := of_generate h
  obtain ⟨hcodec, hs⟩ := shape_of_manifestRoot ht
  rw [ObjectType.table, hcodec] at hreach
  obtain ⟨q, hwithin, hq⟩ := hreach.exists_within hs
  have hsourced := hc.sourced_within (.named t.id) hwithin
  rw [hq] at hsourced
  obtain ⟨space, owner, name, ps, a, origin, hu, hp⟩ := hsourced.exists_of_object
  simp only [ofType, ofKind, Plan.inline.injEq, ShapeOf.object.injEq] at hp
  obtain rfl : a = none := hr _ (Registry.mem_types_iff.mpr hu)
  rw [hp]
  rfl

/-- The root of a manifest has the properties of the object type that is given for it. -/
theorem Codec.Compiled.exists_manifestRoot {r : Registry} {ns : Namespace} {c : Codec} {t : Ty}
    (hc : Compiled r ns c) (hid : c.manifest = some (rootId r ns)) (ht : ns.manifest = some t)
    {x : Resolved} (hx : r.follow ns.name t = .ok x) {ps : Dict Property} {a : Option Ty}
    (hk : x.type.kind = .object ps a) : ∃ root, c.manifestRoot = .ok root ∧
      root.plan.properties = ofProperties r (keys r ns) x.space root.plan.name ps.entries := by
  obtain ⟨hp, hshape⟩ := hc.shape_root ht
  obtain ⟨o, ho, hps⟩ := hc.object_properties hp hx hk (qualify ns.name (manifestName t))
  refine ⟨⟨c, rootId r ns, o⟩, ?_, hps⟩
  rw [manifestRoot, hid]
  dsimp only
  rw [hshape, ho]

theorem ObjectType.exists_parse_eq_ok {t : ObjectType} {d : Dict Value} (h : t.table.TakesDict t.plan d) :
    ∃ x, t.parse d = .ok x := by
  have hrun : (t.table.parseObject t.plan d t.new).2 = none := Table.parseObject_snd_eq_none_iff.mpr h
  unfold parse
  generalize t.table.parseObject t.plan d t.new = run at hrun ⊢
  obtain ⟨x, fault⟩ := run
  cases hrun
  exact ⟨x, rfl⟩

theorem ObjectType.exists_parse_eq_error {t : ObjectType} {d : Dict Value} {path : List String}
    (h : t.table.FaultAt t.plan d path) : ∃ f, t.parse d = .error f ∧ f.keys.reverse = path := by
  have hrun := t.table.dictParsed t.plan d t.new
  cases hfault : (t.table.parseObject t.plan d t.new).2 with
  | none => exact absurd (Table.parseObject_snd_eq_none_iff.mp hfault) h.not_takesDict
  | some f =>
    rw [hfault] at hrun
    cases hrun with
    | faulty _ hat => exact ⟨f, parse_eq_error_iff.mpr hfault, hat.unique h⟩

namespace Extension

/-- The action of a manifest, with the title of the action after it. -/
def opening (title : Value) : Dict Value := ⟨[("title", .string "open"), ("next", .dict ⟨[("title", title)]⟩)]⟩

def listing (title : Value) : Dict Value := ⟨[("name", .string "reader"), ("action", .dict (opening title))]⟩

/-- The plan of an action, and that of the action after it. -/
def IsAction (t : Table) (p next : Plan) : Prop :=
  ∃ o icon, t.shape p = .object o ∧ o.properties =
    [⟨"title", false, .inline .string⟩, ⟨"icon", true, icon⟩, ⟨"next", true, next⟩]

theorem exists_isAction {c : Codec} (hc : Codec.Compiled registry app c) {target : String}
    (hp : Codec.Placed registry app "app" (Ty.ofKind (.reference target)))
    (htarget : registry.chase [] "app" target = .ok ⟨"app", "Action", action⟩) (owner : String) :
    ∃ owner', IsAction c.table
        (ofType registry (Codec.keys registry app) "app" owner (Ty.ofKind (.reference target)))
        (ofType registry (Codec.keys registry app) "app" owner' (Ty.ofKind (.reference "Action"))) ∧
      Codec.Placed registry app "app" (Ty.ofKind (.reference "Action")) := by
  have hx := Registry.follow_of_chase (r := registry) (t := Ty.ofKind (.reference target)) rfl htarget
  obtain ⟨o, ho, hps⟩ := hc.object_properties hp hx rfl owner
  have hplaced := hc.placed_follow hp hx
  exact ⟨_, ⟨o, _, ho, hps⟩, hplaced.property rfl (List.mem_of_getElem? (i := 2) rfl)⟩

/-- The manifest holds an action, and the action holds another one. -/
theorem exists_manifestRoot {c : Codec} (hc : Codec.generate registry {} "app" = .ok c) :
    ∃ t mode action hosts next last, c.manifestRoot = .ok t ∧
      t.plan.properties = [⟨"name", false, .inline .string⟩, ⟨"mode", true, mode⟩, ⟨"action", true, action⟩,
        ⟨"hosts", true, hosts⟩] ∧
      IsAction t.table action next ∧ IsAction t.table next last := by
  obtain ⟨x, marks, hx, -, rfl⟩ := Codec.generate_eq_ok_iff.mp hc
  obtain ⟨-, hns, -⟩ := Codec.draft_eq_ok_iff.mp hx
  have happ : app = x.ns := Option.some.inj (Codec.getNamespace_eq_ok_iff.mp hns)
  have hm : x.ns.manifest = some manifest := by
    rw [← happ]
    rfl
  have hid : (x.codec registry {} marks).manifest = some (Codec.rootId registry x.ns) := by
    rw [Codec.Draft.codec, hm]
    rfl
  have hcompiled : Codec.Compiled registry x.ns (x.codec registry {} marks) := by
    apply Codec.compiled_of_draft hx nodup_registrationKeys
    intro h
    rw [hm] at h
    cases h
  rw [← happ] at hm hid hcompiled
  obtain ⟨t, ht, hps⟩ := hcompiled.exists_manifestRoot hid hm (x := ⟨"app", none, manifest⟩) rfl rfl
  have htable : t.table = (x.codec registry {} marks).table :=
    congrArg Codec.table (Codec.shape_of_manifestRoot ht).1
  have hroot : Codec.Placed registry app "app" manifest := (hcompiled.shape_root hm).1
  obtain ⟨owner, hfirst, hplaced⟩ := exists_isAction hcompiled
    (hroot.property rfl (List.mem_of_getElem? (i := 2) rfl)) chase_command (t.plan.name ++ ".action")
  obtain ⟨_, hnext, -⟩ := exists_isAction hcompiled hplaced chase_action owner
  rw [← htable] at hfirst hnext
  exact ⟨t, _, _, _, _, _, ht, hps, hfirst, hnext⟩

theorem shape_string_ne (t : Table) (o : ObjectPlan) : t.shape (.inline .string) ≠ .object o := by
  rw [Table.shape]
  intro h
  cases h

theorem takesSlot_string {t : Table} {name : String} {optional : Bool} {v : Value} :
    t.TakesSlot ⟨name, optional, .inline .string⟩ (some v) ↔ v.string?.isSome = true := by
  have hs : t.shape (.inline .string) = .string := by rw [Table.shape]
  have hread : t.read? (.inline .string) v = v.string?.map .string := by
    rw [Table.read?_leaf (by rw [hs]; rfl), hs]
    rfl
  rw [Table.TakesSlot, Table.takes_whole_iff (shape_string_ne t), hread, Option.isSome_map]

/-- A first property that is a text and is refused is where the fault is. -/
theorem faultAt_string {t : Table} {o : ObjectPlan} {d : Dict Value} {name : String} {optional : Bool}
    {rest : List PropertyPlan} (hps : o.properties = ⟨name, optional, .inline .string⟩ :: rest)
    (h : ¬ t.TakesSlot ⟨name, optional, .inline .string⟩ (d.get? name)) : t.FaultAt o d [name] := by
  have split : o.properties = [] ++ _ :: _ := hps
  refine .here split (List.forall_mem_nil _) h ?_
  intro o' inner hs
  exact absurd hs (shape_string_ne t o')

section Reading

variable {t : ObjectType} {mode action hosts next last : Plan}
  (hps : t.plan.properties = [⟨"name", false, .inline .string⟩, ⟨"mode", true, mode⟩,
    ⟨"action", true, action⟩, ⟨"hosts", true, hosts⟩])
  (hfirst : IsAction t.table action next) (hnext : IsAction t.table next last)

include hps in
theorem faultAt_empty : t.table.FaultAt t.plan ∅ ["name"] := by
  apply faultAt_string hps
  rw [Dict.get?_empty]
  exact Bool.false_ne_true

include hps hfirst hnext

theorem takesDict_listing (s : String) : t.table.TakesDict t.plan (listing (.string s)) := by
  obtain ⟨o, icon, ho, hprops⟩ := hfirst
  obtain ⟨o', icon', ho', hprops'⟩ := hnext
  have hlast : t.table.TakesDict o' ⟨[("title", .string s)]⟩ := by
    simp only [Table.TakesDict, hprops', List.forall_mem_cons]
    exact ⟨takesSlot_string.mpr rfl, rfl, rfl, List.forall_mem_nil _⟩
  have hopening : t.table.TakesDict o (opening (.string s)) := by
    simp only [Table.TakesDict, hprops, List.forall_mem_cons]
    exact ⟨takesSlot_string.mpr rfl, rfl, (Table.takes_dict_iff ho').mpr hlast, List.forall_mem_nil _⟩
  simp only [Table.TakesDict, hps, List.forall_mem_cons]
  exact ⟨takesSlot_string.mpr rfl, rfl, (Table.takes_dict_iff ho).mpr hopening, rfl, List.forall_mem_nil _⟩

theorem faultAt_listing (n : Int32) :
    t.table.FaultAt t.plan (listing (.int n)) ["action", "next", "title"] := by
  obtain ⟨o, icon, ho, hprops⟩ := hfirst
  obtain ⟨o', icon', ho', hprops'⟩ := hnext
  have hlast : t.table.FaultAt o' ⟨[("title", .int n)]⟩ ["title"] :=
    faultAt_string hprops' (mt takesSlot_string.mp Bool.false_ne_true)
  have hopening : t.table.FaultAt o (opening (.int n)) ["next", "title"] := by
    have split : o.properties = [_, _] ++ _ :: _ := hprops
    refine .under split ?_ ho' rfl hlast
    rw [List.forall_mem_cons, List.forall_mem_singleton]
    exact ⟨takesSlot_string.mpr rfl, rfl⟩
  have split : t.plan.properties = [_, _] ++ _ :: _ := hps
  refine .under split ?_ ho rfl hopening
  rw [List.forall_mem_cons, List.forall_mem_singleton]
  exact ⟨takesSlot_string.mpr rfl, rfl⟩

end Reading

end Extension

/-- Both ways of reading refuse a manifest without a name, take one with nested actions, and refuse
one whose inner action has no proper title. -/
theorem Codec.agrees_of_generate_extension : ∃ c t, generate Extension.registry {} "app" = .ok c ∧
    c.manifestRoot = .ok t ∧ (∀ o, t.table.Reaches t.plan o → o.additional = none) ∧
    t.Agrees ∅ ∧ (∃ f, t.parse ∅ = .error f ∧ f.keys.reverse = ["name"]) ∧
    t.Agrees (Extension.listing (.string "close")) ∧
    (∃ x, t.parse (Extension.listing (.string "close")) = .ok x) ∧
    t.Agrees (Extension.listing (.int 5)) ∧
    ∃ f, t.parse (Extension.listing (.int 5)) = .error f ∧ f.keys.reverse = ["action", "next", "title"] := by
  obtain ⟨c, hc⟩ := Extension.exists_codec
  obtain ⟨t, mode, action, hosts, next, last, ht, hps, hfirst, hnext⟩ := Extension.exists_manifestRoot hc
  have hbare (o : ObjectPlan) (h : t.table.Reaches t.plan o) : o.additional = none :=
    additional_eq_none_of_generate hc ht (by decide) h
  exact ⟨c, t, hc, ht, hbare, agrees_of_generate hc ht hbare _,
    ObjectType.exists_parse_eq_error (Extension.faultAt_empty hps),
    agrees_of_generate hc ht hbare _,
    ObjectType.exists_parse_eq_ok (Extension.takesDict_listing hps hfirst hnext _),
    agrees_of_generate hc ht hbare _,
    ObjectType.exists_parse_eq_error (Extension.faultAt_listing hps hfirst hnext _)⟩

end Interchange
