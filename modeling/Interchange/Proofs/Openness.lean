import Interchange.Proofs.Offering
import Interchange.Proofs.RoundTrip

/-! # Objects that are open to any extra property lose nothing

Such an object keeps the whole dictionary that it is read from beside its declared properties, and
writing merges the two: so what the properties leave out or change is put back. The dictionary that
is written is the one that was read, up to order (`Dict.Same`). Whether it may be written at all is
another matter: a type need not offer that (`ObjectType.Keeps`).
-/

namespace Interchange

open Plan Schema

/-- Dictionaries with the same entries at every depth, in any order: `Alike`, with doubles compared
bit by bit. -/
structure Dict.Same (e d : Dict Value) : Prop where
  regular : (Value.dict e).Regular
  alike : Value.Alike Eq (.dict e) (.dict d)

namespace Table

variable {t : Table} {p : Plan} {o : ObjectPlan} {d : Dict Value} {x : Object}

theorem exists_same_writeObject? (hs : t.shape p = .object o) (hu : t.UniqueNames p) {a : Plan}
    (ha : o.additional = some a) (hany : t.shape a = .any) (hd : (Value.dict d).Regular)
    (hx : t.readObject? o d = some x) : ∃ e, t.writeObject? o x = some e ∧ e.Same d := by
  have hread : t.read? p (.dict d) = some (.object x) := by
    rw [read?_object hs, Value.dict?, Option.bind_some, hx, Option.map_some]
  obtain ⟨w, hw, hn⟩ := exists_normal hu hread
  rw [write?_object hs] at hw
  obtain ⟨e, he, rfl⟩ := Option.map_eq_some_iff.mp hw
  exact ⟨e, he, regular_of_normal hu hd hn, alike_of_free hs hu ha hany hd hn⟩

theorem serializeObject_eq_ok_iff {e : Dict Value} {place : String} :
    t.serializeObject o x place = .ok e ↔ t.writeObject? o x = some e := by
  rw [← toOption_serializeObject (fun y _ => placeless t y) o place, toOption_eq_some_iff]

end Table

theorem Codec.require_eq_error {c : Codec} {id : Nat} {op : Operation}
    (h : (c.operationsAt id).has op = false) (name : String) :
    c.require id name op = .error (.notGenerated name op.name) := by
  rw [require, if_neg (by simp [h])]

namespace ObjectType

variable {t : ObjectType} {d e : Dict Value} {x : Object}

/-- The type takes any extra property. -/
def Open (t : ObjectType) : Prop := ∃ a, t.plan.additional = some a ∧ t.table.shape a = .any

/-- An object keeps the dictionary that it is read from: it is written as the `Same` dictionary, at
whatever place; unless the type does not offer to be written. -/
structure Keeps (t : ObjectType) (d : Dict Value) (x : Object) : Prop where
  written : ∀ place, ∃ e, t.table.serializeObject t.plan x place = .ok e ∧ e.Same d
  offered : t.operations.has .toValue = true → ∃ e, t.toDict x = .ok e ∧ e.Same d
  refused : t.operations.has .toValue = false → t.toDict x = .error (.notGenerated t.name "ToValue")

theorem toDict_of_has (h : t.operations.has .toValue = true)
    (he : t.table.serializeObject t.plan x t.name = .ok e) : t.toDict x = .ok e := by
  rw [toDict, require, Codec.require_eq_ok h, he]
  rfl

theorem toDict_of_not_has (h : t.operations.has .toValue = false) :
    t.toDict x = .error (.notGenerated t.name "ToValue") := by
  rw [toDict, require, Codec.require_eq_error h]
  rfl

end ObjectType

namespace Codec

variable {r : Registry} {ns : Namespace} {settings : Settings} {name type : String} {c : Codec}
  {t : ObjectType} {d : Dict Value} {x : Object}

/-- An object of an `Open` type keeps the dictionary that it is read from. -/
theorem keeps_of_generate (h : generate r settings name = .ok c) (hr : r.UniqueProperties)
    (ht : c.object type = .ok t) (hopen : t.Open) (hd : (Value.dict d).Regular)
    (hx : t.ofDict d = .ok x) : t.Keeps d x := by
  obtain ⟨rfl, hs⟩ := shape_of_object ht
  obtain ⟨a, ha, hany⟩ := hopen
  have hu := uniqueNames_of_type h hr (mentionsType_entry t.codec t.id)
  obtain ⟨e, he, hsame⟩ :=
    Table.exists_same_writeObject? hs hu ha hany hd (ObjectType.ofDict_eq_ok_iff.mp hx).2
  have hwrite (place : String) : t.table.serializeObject t.plan x place = .ok e :=
    Table.serializeObject_eq_ok_iff.mpr he
  refine ⟨fun place => ⟨e, hwrite place, hsame⟩, fun hops => ?_, ObjectType.toDict_of_not_has⟩
  exact ⟨e, ObjectType.toDict_of_has hops (hwrite t.name), hsame⟩

end Codec

/-! ## A journal

Its entries are read and written, its notes only read. -/

namespace Journal

def entry : Ty :=
  (((Ty.object [⟨"count", false, Ty.ofKind .int64⟩]).withAdditional (Ty.ofKind .any)).named
    "Entry").withOrigin .jsonAndClient

def note : Ty :=
  (((Ty.object []).withAdditional (Ty.ofKind .any)).named "Note").withOrigin { fromJson := true }

def journal : Namespace := ((Namespace.empty "journal").withType entry).withType note

def registry : Registry where
  namespaces := [journal]
  distinct := by decide

theorem uniqueNames : registry.UniqueNames := by decide

theorem exists_compiled : ∃ c, Codec.generate registry {} "journal" = .ok c ∧
    Codec.Compiled registry journal c :=
  Codec.exists_compiled (Codec.exists_of_isOk (by decide +kernel)) rfl (by decide)

theorem shape_any (t : Table) : t.shape (.inline .any) = .any := by rw [Table.shape]

theorem exists_entry {c : Codec} (hc : Codec.Compiled registry journal c) :
    ∃ t, c.object "Entry" = .ok t ∧ t.operations = .ofOrigin .jsonAndClient ∧
      t.plan = ⟨"Entry", [⟨"count", false, .inline .int64⟩], some (.inline .any)⟩ := by
  have he : ("Entry", entry) ∈ journal.types.entries := List.mem_of_getElem? (i := 0) rfl
  obtain ⟨t, ht, -, hops, hplan⟩ := hc.exists_objectType rfl he
  exact ⟨t, ht, hops, ShapeOf.object.inj (Plan.inline.inj hplan)⟩

theorem exists_note {c : Codec} (hc : Codec.Compiled registry journal c) :
    ∃ t, c.object "Note" = .ok t ∧ t.operations = .ofOrigin { fromJson := true } ∧
      t.plan = ⟨"Note", [], some (.inline .any)⟩ := by
  have he : ("Note", note) ∈ journal.types.entries := List.mem_of_getElem? (i := 1) rfl
  obtain ⟨t, ht, -, hops, hplan⟩ := hc.exists_objectType rfl he
  exact ⟨t, ht, hops, ShapeOf.object.inj (Plan.inline.inj hplan)⟩

/-- A note is read, but it cannot be written. -/
theorem not_written : ∃ c t x, Codec.generate registry {} "journal" = .ok c ∧
    c.object "Note" = .ok t ∧ t.Open ∧ t.ofDict ⟨[("x", .int 1)]⟩ = .ok x ∧
    t.toDict x = .error (.notGenerated "Note" "ToValue") := by
  obtain ⟨c, hgen, hc⟩ := exists_compiled
  obtain ⟨t, ht, hops, hplan⟩ := exists_note hc
  have hopen : t.Open := ⟨.inline .any, by rw [hplan], shape_any t.table⟩
  have hread : t.table.readObject? t.plan ⟨[("x", .int 1)]⟩ =
      some ⟨∅, .any (Value.merge ∅ ⟨[("x", .int 1)]⟩)⟩ := by
    rw [hplan, Table.readObject?, Table.readExtras?]
    simp only [shape_any]
    rfl
  refine ⟨c, t, _, hgen, ht, hopen, ObjectType.ofDict_eq_ok_iff.mpr ⟨?_, hread⟩, ?_⟩
  · exact Codec.require_eq_ok (by rw [← ObjectType.operations, hops]; rfl) t.name
  · rw [ObjectType.toDict_of_not_has (by rw [hops]; rfl), ObjectType.name, hplan]

/-- A count that is a whole double, and an extra property. -/
def counted : Dict Value := ⟨[("count", .double (.ofInt 5)), ("x", .int 1)]⟩

theorem regular_counted : (Value.dict counted).Regular :=
  Value.regular_pair (by decide) (Value.regular_atom rfl rfl) (Value.regular_atom rfl rfl)

/-- A whole double is read as the count of an entry, whatever else is given. -/
theorem exists_read {t : ObjectType}
    (hplan : t.plan = ⟨"Entry", [⟨"count", false, .inline .int64⟩], some (.inline .any)⟩)
    {d : Dict Value} (hd : d.get? "count" = some (.double (.ofInt 5))) :
    ∃ x, t.table.readObject? t.plan d = some x := by
  have hint64 : t.table.shape (.inline .int64) = .int64 := by rw [Table.shape]
  have hcount : t.table.read? (.inline .int64) (.double (.ofInt 5)) = some (.int64 5) := by
    rw [Table.read?_leaf (by rw [hint64]; rfl), hint64, ShapeOf.readLeaf?, Populate.int64?,
      Populate.integral?_five, Option.map_some]
  apply Option.isSome_iff_exists.mp
  rw [Table.isSome_readObject?_iff, hplan]
  refine ⟨fun q hq => ?_, ?_⟩
  · cases List.mem_singleton.mp hq
    rw [hd]
    apply Table.isSome_readSlot?_iff.mpr
    refine ⟨fun _ => rfl, fun v hv _ => ?_⟩
    cases hv
    rw [hcount]
    rfl
  · rw [Table.readExtras?]
    simp only [shape_any]
    rfl

theorem exists_read_counted {t : ObjectType}
    (hplan : t.plan = ⟨"Entry", [⟨"count", false, .inline .int64⟩], some (.inline .any)⟩) :
    ∃ x, t.table.readObject? t.plan counted = some x :=
  exists_read hplan rfl

end Journal

/-- The count is written as an integer, and put back as the double that it was read from. -/
theorem Codec.keeps_of_generate_journal : Journal.registry.UniqueProperties ∧
    ∃ c t x, generate Journal.registry {} "journal" = .ok c ∧ c.object "Entry" = .ok t ∧ t.Open ∧
      (Value.dict Journal.counted).Regular ∧ t.ofDict Journal.counted = .ok x ∧
      ∃ e, t.toDict x = .ok e ∧ e.Same Journal.counted := by
  obtain ⟨c, hgen, hc⟩ := Journal.exists_compiled
  obtain ⟨t, ht, hops, hplan⟩ := Journal.exists_entry hc
  obtain ⟨x, hread⟩ := Journal.exists_read_counted hplan
  have hopen : t.Open := ⟨.inline .any, by rw [hplan], Journal.shape_any t.table⟩
  have hx : t.ofDict Journal.counted = .ok x :=
    ObjectType.ofDict_eq_ok_iff.mpr
      ⟨require_eq_ok (by rw [← ObjectType.operations, hops]; rfl) t.name, hread⟩
  have hkeeps :=
    keeps_of_generate hgen Journal.uniqueNames.properties ht hopen Journal.regular_counted hx
  exact ⟨Journal.uniqueNames.properties, c, t, x, hgen, ht, hopen, Journal.regular_counted, hx,
    hkeeps.offered (by rw [hops]; rfl)⟩

end Interchange
