import Interchange.Proofs.Openness

/-! # The keys that an object is written under

Of the declared properties those are written that were given, in the order of declaration. A type
that takes extra properties, of whatever kind, writes all other keys of the dictionary behind them,
in the order of the dictionary; any other type drops them (`keysFor`, `ObjectType.Lists`).
-/

namespace Interchange

open Plan Schema

namespace Table

variable {t : Table} {p : Plan} {o : ObjectPlan} {d e : Dict Value} {x : Object} {q : PropertyPlan}

/-- A property is written if and only if it was given to `readSlot?`. -/
theorem isWritten_of_readSlot? {u : Option Value} {slot : Option Data}
    (h : t.readSlot? q u = some slot) : (!q.optional || Data.engaged slot) = u.isSome := by
  cases u with
  | none =>
    rw [readSlot?] at h
    split at h
    · rename_i hopt
      cases h
      rw [hopt, engaged_absentSlot]
      rfl
    · cases h
  | some v =>
    rw [readSlot?] at h
    split at h
    · cases h
      exact Bool.or_true _
    · obtain ⟨y, hy, rfl⟩ := Option.map_eq_some_iff.mp h
      rw [engaged_of_read? hy]
      exact Bool.or_true _

theorem written_of_readObject? (hn : (o.properties.map (·.name)).Nodup)
    (hx : t.readObject? o d = some x) :
    written x o.properties = o.properties.filter fun q => d.contains q.name :=
  List.filter_congr fun _ hq => isWritten_of_readSlot? (readSlot?_of_readObject? hn hx hq)

theorem map_fst_of_readObject? (hn : (o.properties.map (·.name)).Nodup)
    (hx : t.readObject? o d = some x) {fields : List (String × Value)}
    (hf : t.writeFields? o.properties x = some fields) :
    fields.map (·.1) = (o.properties.map (·.name)).filter d.contains := by
  rw [map_fst_writeFields? hf, written_of_readObject? hn hx, List.filter_map]
  rfl

/-- The keys that are written of `d`, where the type takes extra properties or does not. -/
def keysFor (o : ObjectPlan) (d : Dict Value) : List String :=
  (o.properties.map (·.name)).filter d.contains ++
    if o.additional.isSome then d.keys.filter (· ∉ o.properties.map (·.name)) else []

theorem keysFor_of_none (ha : o.additional = none) :
    keysFor o d = (o.properties.map (·.name)).filter d.contains := by
  simp [keysFor, ha]

/-- The keys of the dictionary are entered behind the declared ones, by `Dict.addKey`. -/
theorem keysFor_of_some {a : Plan} (ha : o.additional = some a) (hd : d.Distinct) :
    keysFor o d = d.keys.foldl Dict.addKey ((o.properties.map (·.name)).filter d.contains) := by
  have hrest : d.keys.filter (· ∉ (o.properties.map (·.name)).filter d.contains) =
      d.keys.filter (· ∉ o.properties.map (·.name)) := by
    refine List.filter_congr fun k hk => ?_
    have hc : d.contains k = true := Dict.contains_eq_true_iff.mpr hk
    simp [List.mem_filter, hc]
  rw [Dict.foldl_addKey_eq hd, hrest, keysFor, ha]
  rfl

theorem nodup_keysFor (hn : (o.properties.map (·.name)).Nodup) (hd : d.Distinct) :
    (keysFor o d).Nodup := by
  rw [keysFor]
  refine List.nodup_append.mpr ⟨hn.filter _, ?_, ?_⟩
  · split
    · exact List.Nodup.filter _ hd
    · exact List.nodup_nil
  · rintro k hk l hl rfl
    split at hl
    · exact of_decide_eq_true (List.mem_filter.mp hl).2 (List.mem_filter.mp hk).1
    · cases hl

theorem mem_keysFor_iff (hq : q ∈ o.properties) : q.name ∈ keysFor o d ↔ q.name ∈ d.keys := by
  have hmem : q.name ∈ o.properties.map (·.name) := List.mem_map.mpr ⟨q, hq, rfl⟩
  rw [keysFor, List.mem_append, List.mem_filter, Dict.contains_eq_true_iff]
  refine ⟨fun h => ?_, fun h => .inl ⟨hmem, h⟩⟩
  rcases h with h | h
  · exact h.2
  · split at h
    · exact absurd hmem (of_decide_eq_true (List.mem_filter.mp h).2)
    · cases h

/-- An object that has been read is written under the keys `keysFor`. -/
theorem keys_of_writeObject? (hn : (o.properties.map (·.name)).Nodup) (hd : d.Distinct)
    (hx : t.readObject? o d = some x) (hw : t.writeObject? o x = some e) : e.keys = keysFor o d := by
  obtain ⟨fields, hf, hw⟩ := Option.bind_eq_some_iff.mp hw
  have hfields := map_fst_of_readObject? hn hx hf
  have hdeclared : (Dict.ofList fields).keys = (o.properties.map (·.name)).filter d.contains := by
    rw [Dict.ofList_of_nodup (nodup_writeFields? hn hf)]
    exact hfields
  have hextras := readExtras?_of_readObject? hx
  rw [readExtras?] at hextras
  cases ha : o.additional with
  | none =>
    simp only [ha, Option.some.injEq] at hextras
    rw [← hextras] at hw
    cases hw
    rw [hdeclared, keysFor_of_none ha]
  | some a =>
    rw [keysFor_of_some ha hd]
    simp only [ha] at hextras
    split at hextras
    · rw [← Option.some.inj hextras, Value.merge_empty hd] at hw
      cases hw
      rw [Value.merge, Value.keys_mergeEntries, hdeclared]
      rfl
    · obtain ⟨es, hes, hextras⟩ := Option.map_eq_some_iff.mp hextras
      have hkeys : es.map (·.1) = d.keys := map_fst_of_mapM hes
      rw [← hextras, Dict.ofList_of_nodup (by rw [hkeys]; exact hd)] at hw
      simp only [ha, Option.bind_some] at hw
      obtain ⟨vs, hvs, rfl⟩ := Option.map_eq_some_iff.mp hw
      have hvalues : vs.map (·.1) = d.keys := (map_fst_of_mapM hvs).trans hkeys
      rw [Dict.ofList_eq_enter, Dict.enter_append, Dict.keys_enter, hvalues, ← Dict.ofList_eq_enter,
        hdeclared]

end Table

namespace ObjectType

/-- The keys that an object is written under which was read from a dictionary: the declared names
that the dictionary has, in the order of declaration, and behind them, if the type takes extra
properties, all other keys of the dictionary in its order (`keysFor`). No key is written twice, none
that is required is left out, and no declared one that was absent is added. -/
structure Lists (t : ObjectType) (d : Dict Value) (x : Object) : Prop where
  written : ∀ place, ∃ e, t.table.serializeObject t.plan x place = .ok e ∧ e.keys = Table.keysFor t.plan d
  offered : t.operations.has .toValue = true →
    ∃ e, t.toDict x = .ok e ∧ e.keys = Table.keysFor t.plan d
  refused : t.operations.has .toValue = false → t.toDict x = .error (.notGenerated t.name "ToValue")
  once : (Table.keysFor t.plan d).Nodup
  required : ∀ q ∈ t.plan.properties, q.optional = false → q.name ∈ Table.keysFor t.plan d
  absent : ∀ q ∈ t.plan.properties, d.get? q.name = none → q.name ∉ Table.keysFor t.plan d

theorem lists_of_ofDict {t : ObjectType} (hs : t.table.shape (.named t.id) = .object t.plan)
    (hu : t.table.UniqueNames (.named t.id)) {d : Dict Value} (hd : d.Distinct) {x : Object}
    (hx : t.ofDict d = .ok x) : t.Lists d x := by
  have hn := hu.nodup hs
  have hread := (ofDict_eq_ok_iff.mp hx).2
  obtain ⟨w, hw⟩ := ((ObjectType.sound hs hu).ofDict d x hx).writes t.name
  rw [Table.serialize_eq_ok_iff, Table.write?_object hs] at hw
  obtain ⟨e, he, -⟩ := Option.map_eq_some_iff.mp hw
  have hkeys := Table.keys_of_writeObject? hn hd hread he
  have hwrite (place : String) : t.table.serializeObject t.plan x place = .ok e :=
    Table.serializeObject_eq_ok_iff.mpr he
  refine ⟨fun place => ⟨e, hwrite place, hkeys⟩, fun hops => ?_, toDict_of_not_has,
    Table.nodup_keysFor hn hd, fun q hq ho => ?_, fun q hq hnone => ?_⟩
  · exact ⟨e, toDict_of_has hops (hwrite t.name), hkeys⟩
  · rw [Table.mem_keysFor_iff hq]
    by_contra hmem
    have hslot := Table.readSlot?_of_readObject? hn hread hq
    rw [Dict.get?_eq_none_iff.mpr hmem, Table.readSlot?, ho] at hslot
    cases hslot
  · rw [Table.mem_keysFor_iff hq]
    exact Dict.get?_eq_none_iff.mp hnone

end ObjectType

namespace Codec

/-- Every object type of a codec, the root of the manifest included, writes the keys that it was
given (`ObjectType.Lists`). -/
structure ListsKeys (c : Codec) : Prop where
  object : ∀ type t, c.object type = .ok t → ∀ d x, d.Distinct → t.ofDict d = .ok x → t.Lists d x
  manifest : ∀ t, c.manifestRoot = .ok t → ∀ d x, d.Distinct → t.ofDict d = .ok x → t.Lists d x

theorem listsKeys_of_generate {r : Registry} {settings : Settings} {name : String} {c : Codec}
    (h : generate r settings name = .ok c) (hr : r.UniqueProperties) : c.ListsKeys where
  object type t ht d x hd hx := by
    obtain ⟨rfl, hs⟩ := shape_of_object ht
    exact ObjectType.lists_of_ofDict hs (uniqueNames_of_type h hr (mentionsType_entry _ t.id)) hd hx
  manifest t ht d x hd hx := by
    obtain ⟨rfl, hs⟩ := shape_of_manifestRoot ht
    exact ObjectType.lists_of_ofDict hs (uniqueNames_of_type h hr (mentionsType_entry _ t.id)) hd hx

end Codec

/-- The extra property comes first. -/
def Journal.swapped : Dict Value := ⟨[("x", .int 1), ("count", .double (.ofInt 5))]⟩

/-- The count is written first, though it was given last. -/
theorem Codec.listsKeys_of_generate_journal : Journal.registry.UniqueProperties ∧
    ∃ c t x e, generate Journal.registry {} "journal" = .ok c ∧ c.object "Entry" = .ok t ∧
      Journal.swapped.Distinct ∧ t.ofDict Journal.swapped = .ok x ∧ t.toDict x = .ok e ∧
      e.keys = ["count", "x"] := by
  obtain ⟨c, hgen, hc⟩ := Journal.exists_compiled
  obtain ⟨t, ht, hops, hplan⟩ := Journal.exists_entry hc
  obtain ⟨x, hread⟩ := Journal.exists_read (d := Journal.swapped) hplan rfl
  have hx : t.ofDict Journal.swapped = .ok x :=
    ObjectType.ofDict_eq_ok_iff.mpr
      ⟨require_eq_ok (by rw [← ObjectType.operations, hops]; rfl) t.name, hread⟩
  have hd : Journal.swapped.Distinct := by
    simp [Dict.Distinct, Dict.keys, Journal.swapped]
  have hlists := (listsKeys_of_generate hgen Journal.uniqueNames.properties).object "Entry" t ht _ x hd hx
  obtain ⟨e, he, hkeys⟩ := hlists.offered (by rw [hops]; rfl)
  refine ⟨Journal.uniqueNames.properties, c, t, x, e, hgen, ht, hd, hx, he, ?_⟩
  rw [hkeys, hplan]
  rfl

end Interchange
