import Interchange.Proofs.Value
import Interchange.Value.Json

/-! # Values that go through JSON

What JSON has no room for is replaced, at every depth (`plain`): binary data by the list of its
bytes, and doubles that are not finite by null. Everything else comes back as it was (`Bridged`),
integers as integers and doubles as doubles.
-/

namespace Interchange.Value

open Relation (ReflTransGen)

/-! ## What JSON has room for -/

mutual

/-- The value with everything replaced that `toJson` has no room for. -/
def plain : Value → Value
  | .null => .null
  | .bool b => .bool b
  | .int n => .int n
  | .string s => .string s
  | .double d => if d.isFinite then .double d else .null
  | .binary bytes => .list (bytes.map fun b => .int (.ofInt b.toNat))
  | .list items => .list (plainItems items)
  | .dict ⟨entries⟩ => .dict ⟨plainEntries entries⟩

def plainItems : List Value → List Value
  | [] => []
  | v :: vs => v.plain :: plainItems vs

def plainEntries : List (String × Value) → List (String × Value)
  | [] => []
  | (k, v) :: es => (k, v.plain) :: plainEntries es

end

/-- A value without binary data and without doubles that are not finite, at any depth: the values
that `plain` leaves alone (`plain_eq_self_iff`). -/
def Plain (v : Value) : Prop :=
  ∀ u, ReflTransGen Part u v → u.binary? = none ∧ ∀ d, u = .double d → d.isFinite = true

theorem plainItems_eq (vs : List Value) : plainItems vs = vs.map plain := by
  induction vs with
  | nil => rfl
  | cons v vs ih => rw [plainItems, ih, List.map_cons]

theorem plainEntries_eq (es : List (String × Value)) :
    plainEntries es = es.map fun e => (e.1, e.2.plain) := by
  induction es with
  | nil => rfl
  | cons e es ih => rw [plainEntries, ih, List.map_cons]

@[simp] theorem plain_list (vs : List Value) : plain (.list vs) = .list (vs.map plain) := by
  rw [plain, plainItems_eq]

@[simp] theorem plain_dict (d : Dict Value) : plain (.dict d) = .dict (d.map plain) := by
  rw [plain, plainEntries_eq]
  rfl

theorem Plain.part {u v : Value} (hv : Plain v) (h : Part u v) : Plain u :=
  fun w hw => hv w (hw.tail h)

/-- What holds of the value itself and of its parts holds at every depth. -/
theorem plain_of_parts {v : Value} (hb : v.binary? = none) (hd : ∀ d, v = .double d → d.isFinite = true)
    (h : ∀ u, Part u v → Plain u) : Plain v := by
  intro w hw
  rcases hw.cases_tail with rfl | ⟨u, hwu, huv⟩
  · exact ⟨hb, hd⟩
  · exact h u huv w hwu

theorem plain_atom {v : Value} (hb : v.binary? = none) (hd : ∀ d, v = .double d → d.isFinite = true)
    (hl : v.list? = none) (he : v.dict? = none) : Plain v := by
  refine plain_of_parts hb hd fun u hu => ?_
  cases hu with
  | item => cases hl
  | entry => cases he

theorem plain_list_iff {vs : List Value} : Plain (.list vs) ↔ ∀ v ∈ vs, Plain v := by
  constructor
  · exact fun h v hv => h.part (.item hv)
  · intro h
    refine plain_of_parts rfl nofun fun u hu => ?_
    cases hu with
    | item hu => exact h u hu

theorem plain_dict_iff {d : Dict Value} : Plain (.dict d) ↔ ∀ e ∈ d.entries, Plain e.2 := by
  constructor
  · exact fun h e he => h.part (.entry he)
  · intro h
    refine plain_of_parts rfl nofun fun u hu => ?_
    cases hu with
    | entry he => exact h _ he

/-- What is replaced has a place in JSON, so `plain` is idempotent. -/
theorem plain_plain (v : Value) : Plain v.plain := by
  induction v using part_induction with
  | step v ih =>
    cases v with
    | null | bool | int | string => exact plain_atom rfl nofun rfl rfl
    | double d =>
      rw [plain]
      split
      · rename_i hd
        refine plain_atom rfl ?_ rfl rfl
        rintro _ ⟨⟩
        exact hd
      · exact plain_atom rfl nofun rfl rfl
    | binary bytes =>
      rw [plain, plain_list_iff, List.forall_mem_map]
      exact fun b _ => plain_atom rfl nofun rfl rfl
    | list vs =>
      rw [plain_list, plain_list_iff, List.forall_mem_map]
      exact fun u hu => ih u (.item hu)
    | dict d =>
      rw [plain_dict, plain_dict_iff, Dict.map, List.forall_mem_map]
      exact fun e he => ih e.2 (.entry he)

theorem plain_eq_self_iff {v : Value} : v.plain = v ↔ Plain v := by
  refine ⟨fun h => h ▸ plain_plain v, ?_⟩
  induction v using part_induction with
  | step v ih =>
    intro h
    have hparts : ∀ u, Part u v → u.plain = u := fun u hu => ih u hu (h.part hu)
    obtain ⟨hb, hd⟩ := h v .refl
    cases v with
    | null | bool | int | string => rfl
    | double d => rw [plain, if_pos (hd d rfl)]
    | binary => cases hb
    | list vs =>
      have hmap : vs.map plain = vs.map id := List.map_congr_left fun u hu => hparts u (.item hu)
      rw [plain_list, hmap, List.map_id]
    | dict d =>
      have hmap : d.entries.map (fun e => (e.1, e.2.plain)) = d.entries.map id :=
        List.map_congr_left fun e he => Prod.ext rfl (hparts e.2 (.entry he))
      rw [plain_dict, Dict.map, hmap, List.map_id]

/-! ## Places -/

/-- What stands at the end of a way into the value, one `child` after the other. -/
def at? (v : Value) : List Step → Option Value
  | [] => some v
  | s :: way => (v.child s).bind fun u => u.at? way

theorem child_plain {u v : Value} {s : Step} (h : v.child s = some u) :
    v.plain.child s = some u.plain := by
  cases v with
  | list vs =>
    cases s with
    | item i =>
      rw [child] at h
      rw [plain_list, child, List.getElem?_map, h, Option.map_some]
    | entry => cases h
  | dict d =>
    cases s with
    | item => cases h
    | entry k =>
      rw [child] at h
      rw [plain_dict, child, Dict.get?_map, h, Option.map_some]
  | null | bool | int | double | string | binary => cases s <;> cases h

/-- Every place stays, with what stands there replaced. -/
theorem at?_plain {u v : Value} {way : List Step} (h : v.at? way = some u) :
    v.plain.at? way = some u.plain := by
  induction way generalizing v with
  | nil =>
    cases h
    rfl
  | cons s way ih =>
    obtain ⟨w, hw, hu⟩ := Option.bind_eq_some_iff.mp h
    rw [at?, child_plain hw, Option.bind_some, ih hu]

/-! ## Going through JSON -/

/-- A byte fits 32 bits, so `ofNumber` gives an integer for it. -/
theorem ofNumber_byte (b : UInt8) : ofNumber (.int b.toNat) = .int (.ofInt b.toNat) := by
  have := b.toNat_lt
  have hfits : (Int32.ofInt b.toNat).toInt = b.toNat := by
    refine Int32.toInt_ofInt_of_le ?_ ?_ <;> omega
  rw [ofNumber, if_pos hfits.symm]

theorem ofNumber_toInt (n : Int32) : ofNumber (.int n.toInt) = .int n := by
  rw [ofNumber, Int32.ofInt_toInt, if_pos rfl]

theorem ofItems_bytes (bytes : List UInt8) :
    ofItems (bytes.map fun b => .number (.int b.toNat)) = bytes.map fun b => .int (.ofInt b.toNat) := by
  induction bytes with
  | nil => rfl
  | cons b bytes ih => rw [List.map_cons, ofItems, ih, ofJson, ofNumber_byte, List.map_cons]

mutual

theorem ofJson_toJson (v : Value) : ofJson v.toJson = v.plain := by
  cases v with
  | null | bool | string => rfl
  | int n => rw [toJson, ofJson, ofNumber_toInt, plain]
  | double d =>
    rw [toJson, plain]
    split <;> rfl
  | binary bytes => rw [toJson, ofJson, ofItems_bytes, plain]
  | list items => rw [toJson, ofJson, ofItems_toItems, plain]
  | dict entries =>
    obtain ⟨entries⟩ := entries
    rw [toJson, ofJson, ofMembers_toMembers, plain]

theorem ofItems_toItems (vs : List Value) : ofItems (toItems vs) = plainItems vs := by
  cases vs with
  | nil => rfl
  | cons v vs => rw [toItems, ofItems, ofJson_toJson v, ofItems_toItems vs, plainItems]

theorem ofMembers_toMembers (es : List (String × Value)) :
    ofMembers (toMembers es) = plainEntries es := by
  cases es with
  | nil => rfl
  | cons e es =>
    obtain ⟨k, v⟩ := e
    rw [toMembers, ofMembers, ofJson_toJson v, ofMembers_toMembers es, plainEntries]

end

/-- How a value `v` comes through JSON as `w`. -/
structure Bridged (v w : Value) : Prop where
  /-- What JSON has no room for is replaced, and nothing else changes. -/
  replaced : w = v.plain
  /-- Nothing is replaced exactly where there is no such thing. -/
  unchanged : w = v ↔ v.Plain
  /-- At every place a finite double stays a double, whole numbers included. -/
  double : ∀ (way : List Step) (d : Double), v.at? way = some (.double d) → d.isFinite = true →
    w.at? way = some (.double d)
  /-- A second time nothing is left to be replaced. -/
  again : ofJson w.toJson = w

theorem bridged_ofJson_toJson (v : Value) : Bridged v (ofJson v.toJson) := by
  rw [ofJson_toJson]
  refine ⟨rfl, plain_eq_self_iff, fun way d hd hf => ?_, ?_⟩
  · rw [at?_plain hd, plain, if_pos hf]
  · rw [ofJson_toJson, plain_eq_self_iff.mpr (plain_plain v)]

end Interchange.Value
