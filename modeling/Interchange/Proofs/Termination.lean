import Interchange.Proofs.Grammar
import Interchange.Proofs.Runs
import Interchange.Proofs.Unfolding
import Mathlib.Data.List.Perm.Subperm

/-! # Every run on the plans of a codec comes to an end

However recursive its types are. Names are those of entries, and no name comes twice on the way to
what is written out (`exists_route`). New instances (`defaultWithin`), the search for a variant
(`admitsWithin`) and reading (`convertWithin`) are runs with a budget here, by recursion on it and
without regard to whether plans lead back to themselves: a budget beyond the depth of a run
suffices.
-/

namespace Interchange

open Plan Schema

/-! ## Ways to what is written out -/

namespace Table

variable {t : Table} {p : Plan} {v : Value} {n : Nat}

/-- Follows names as `shape` does, of which each must be that of an entry: the entries on the way,
and what is written out at its end. -/
def route? (t : Table) : Nat → Plan → Option (List Nat × Shape)
  | _, .inline s => some ([], s)
  | 0, .named _ => none
  | n + 1, .named id => do
    let e ← t.entries[id]?
    let (ids, s) ← t.route? n e.plan
    return (id :: ids, s)

/-- A plan that names an entry, if it is a name. -/
def InTable (t : Table) (p : Plan) : Prop := ∀ id, p = .named id → id < t.size

/-- Heights fall from each name to the next, so the names on a `route?` differ. -/
theorem exists_hops (hclosed : ∀ e ∈ t.entries, t.InTable e.plan) (p : Plan) (hp : t.InTable p) :
    ∃ ids, (∀ n, ids.length ≤ n → t.route? n p = some (ids, t.shape p)) ∧
      t.target? p = ids.getLast? ∧ (∀ id ∈ ids, id < t.size) ∧
      (∀ id ∈ ids, t.requiredHeight (.named id) ≤ t.requiredHeight p) ∧
      ids.Pairwise fun id id' => t.requiredHeight (.named id') < t.requiredHeight (.named id) := by
  fun_induction shape t p with
  | case1 s => exact ⟨[], fun n _ => by rw [route?], by rw [target?]; rfl, by simp, by simp, by simp⟩
  | case2 id ih =>
    have hid : id < t.entries.length := hp id rfl
    have hplan : t.plan id = t.entries[id].plan := by
      simp [plan, planAt, List.getElem?_eq_getElem hid]
    obtain ⟨ids, hroute, htarget, hlt, hle, hpair⟩ :=
      ih (hplan ▸ hclosed _ (List.getElem_mem hid))
    have hdown := t.requiredHeight_plan_lt id
    refine ⟨id :: ids, fun n hn => ?_, ?_, ?_, ?_, ?_⟩
    · cases n with
      | zero => cases hn
      | succ n =>
        have hrest := hroute n (Nat.le_of_succ_le_succ hn)
        rw [hplan] at hrest
        simp [route?, List.getElem?_eq_getElem hid, hrest, hplan]
    · rw [target?, htarget, List.getLast?_cons]
    · exact List.forall_mem_cons.mpr ⟨hid, hlt⟩
    · exact List.forall_mem_cons.mpr
        ⟨le_rfl, fun id' h => le_trans (hle id' h) (le_of_lt hdown)⟩
    · exact List.pairwise_cons.mpr ⟨fun id' hid' => lt_of_le_of_lt (hle id' hid') hdown, hpair⟩

/-- No name comes twice on the way to what is written out, so there are at most as many as entries.
-/
theorem exists_route (hclosed : ∀ e ∈ t.entries, t.InTable e.plan) (hp : t.InTable p) :
    ∃ ids, t.route? t.size p = some (ids, t.shape p) ∧ t.target? p = ids.getLast? ∧
      ∀ id ∈ ids, id < t.size := by
  obtain ⟨ids, hroute, htarget, hlt, -, hpair⟩ := exists_hops hclosed p hp
  have hnodup : ids.Nodup := by
    refine hpair.imp ?_
    intro id id' hlt he
    rw [he] at hlt
    exact lt_irrefl _ hlt
  have hsub : ids ⊆ List.range t.size := fun id hid => List.mem_range.mpr (hlt id hid)
  have hlength := (hnodup.subperm hsub).length_le
  rw [List.length_range] at hlength
  exact ⟨ids, hroute _ hlength, htarget, hlt⟩

/-! ## New instances -/

/-- The slot of a property as `defaultSlot` has it, where `make` makes the data of plans. -/
def slotWith (t : Table) (make : Plan → Option Data) (q : PropertyPlan) : Option (Option Data) :=
  if t.isEnum q.plan then some (some (.enumeration .none))
  else if q.optional then some none
  else (make q.plan).map some

def objectWith (t : Table) (make : Plan → Option Data) (o : ObjectPlan) : Option Object :=
  (o.properties.mapM fun q => (t.slotWith make q).map fun slot => (q.name, slot)).map fun fields =>
    ⟨.ofList fields, t.newExtras o⟩

/-- The data that a new instance holds, as `defaultData` makes it, within a budget. -/
def defaultWithin (t : Table) : Nat → Plan → Option Data
  | 0, _ => none
  | n + 1, p =>
    match t.shape p with
    | .boolean => some (.boolean false)
    | .integer => some (.integer 0)
    | .int64 => some (.int64 0)
    | .double => some (.double .zero)
    | .string | .function true => some (.string "")
    | .binary => some (.binary [])
    | .any => some (.any .null)
    | .function false => some (.function (.dict ∅))
    | .enumeration _ => some (.enumeration .none)
    | .array _ => some (.array [])
    | .object o => (t.objectWith (t.defaultWithin n) o).map .object
    | .choices c => some (.choice (t.newChoice c))

theorem objectWith_eq {make : Plan → Option Data} {o : ObjectPlan}
    (h : ∀ q ∈ o.properties, q.optional = false → make q.plan = some (t.defaultData q.plan)) :
    t.objectWith make o = some (t.newObject o) := by
  have hslots : (o.properties.mapM fun q => (t.slotWith make q).map fun slot => (q.name, slot)) =
      some (t.defaultFields o.properties) := by
    rw [mapM_eq_some_iff, defaultFields_eq, List.forall₂_map_right_iff, List.forall₂_same]
    intro q hq
    unfold slotWith defaultSlot
    split
    · rfl
    · split
      · rfl
      · rename_i ho
        rw [h q hq (Bool.eq_false_iff.mpr ho)]
        rfl
  rw [objectWith, hslots]
  rfl

theorem defaultWithin_eq (h : t.requiredDepth p < n) : t.defaultWithin n p = some (t.defaultData p) := by
  induction n generalizing p with
  | zero => cases h
  | succ n ih =>
    rw [defaultWithin]
    cases hs : t.shape p with
    | object o =>
      have hnew : t.objectWith (t.defaultWithin n) o = some (t.newObject o) := by
        refine objectWith_eq fun q hq ho => ih ?_
        have := requiredDepth_lt hs hq ho
        omega
      simp only [defaultData_object hs, hnew, Option.map_some]
    | array items => rw [defaultData_array hs]
    | choices c => rw [defaultData_choices hs]
    | function b =>
      cases b <;>
      · refine congrArg some ?_
        rw [defaultData]
        split <;> rename_i hs' <;> rw [hs] at hs' <;> cases hs'
    | boolean | integer | int64 | double | string | binary | any | enumeration =>
      refine congrArg some ?_
      rw [defaultData]
      split <;> rename_i hs' <;> rw [hs] at hs' <;> cases hs'

theorem newObjectWithin_eq {o : ObjectPlan} (h : t.requiredDepth (.inline (.object o)) ≤ n) :
    t.objectWith (t.defaultWithin n) o = some (t.newObject o) := by
  refine objectWith_eq fun q hq ho => defaultWithin_eq (Nat.lt_of_lt_of_le ?_ h)
  exact requiredDepth_lt (by rw [shape]) hq ho

/-! ## Variants -/

/-- Whether the kind of a value suits a plan, as `admits` finds out, within a budget. -/
def admitsWithin (t : Table) : Nat → Plan → Value → Option Bool
  | 0, _, _ => none
  | n + 1, p, v =>
    match t.shape p with
    | .choices c => c.variants.anyM fun w => t.admitsWithin n w.plan v
    | s => some (s.takes v.kind)

theorem anyM_eq_some {α : Type} {l : List α} {f : α → Option Bool} {g : α → Bool}
    (h : ∀ x ∈ l, f x = some (g x)) : l.anyM f = some (l.any g) := by
  induction l with
  | nil => rfl
  | cons x l ih =>
    rw [List.forall_mem_cons] at h
    rw [List.anyM, h.1, List.any_cons]
    cases g x with
    | true => rfl
    | false => exact ih h.2

theorem admitsWithin_eq (h : t.variantDepth p < n) (v : Value) :
    t.admitsWithin n p v = some (t.admits p v) := by
  induction n generalizing p with
  | zero => cases h
  | succ n ih =>
    rw [admitsWithin]
    split
    · rename_i c hs
      rw [admits_of_choices hs]
      refine anyM_eq_some fun w hw => ih ?_
      have := variantDepth_lt hs hw
      omega
    · rename_i hs
      rw [admits_of_not_choices hs]

end Table

namespace Registry

variable {r : Registry} {keys : List String} {p q : Plan}

/-- A plan all of whose names are numbers of keys, at any depth. -/
inductive Numbered (r : Registry) (keys : List String) : Plan → Prop
  | named {id : Nat} (h : id < keys.length) : Numbered r keys (.named id)
  | type {space owner : String} {t : Ty} (h : r.Covers keys space t) :
      Numbered r keys (ofType r keys space owner t)
  | params {space owner : String} {ps : List Property} (h : ∀ a ∈ ps, r.Covers keys space a.type) :
      Numbered r keys (.inline (.object (ofParams r keys space owner ps)))

theorem Numbered.part (h : Numbered r keys p) (hq : Plan.Part q p) : Numbered r keys q := by
  cases h with
  | named => cases hq
  | type h =>
    obtain ⟨u, owner, hu, rfl⟩ := exists_of_part_ofType hq
    exact .type (h.part hu)
  | params h =>
    obtain ⟨a, ha, owner, rfl⟩ := exists_of_part_ofParams hq
    exact .type (h a ha)

theorem Numbered.lt (h : Numbered r keys p) {id : Nat} (hp : p = .named id) : id < keys.length := by
  cases h with
  | named h =>
    cases hp
    exact h
  | type h => exact lt_of_ofType_eq_named h hp
  | params => cases hp

end Registry

namespace Codec

variable {r : Registry} {ns : Namespace} {settings : Settings} {name : String} {c : Codec} {p q : Plan}

/-- The plans of a codec: its entries, what it is used with (`Root`), and all plans in them. -/
inductive Contains (c : Codec) : Plan → Prop
  | entry {e : Entry} (h : e ∈ c.table.entries) : Contains c e.plan
  | root {p : Plan} (h : c.Root p) (hp : c.table.InTable p) : Contains c p
  | part {p q : Plan} (hp : Contains c p) (hq : Plan.Part q p) : Contains c q

theorem Of.numbered (hc : Of r ns c) (h : c.Contains p) : r.Numbered (keys r ns) p := by
  induction h with
  | @entry e he =>
    rw [hc.entries] at he
    obtain ⟨d, hd, rfl⟩ := List.mem_map.mp he
    exact .type (covers_of_definitions hd)
  | root h hp =>
    rcases hc.root_cases h with ⟨id, rfl⟩ | ⟨owner, ps, hps, rfl⟩
    · exact .named (hc.size_eq ▸ hp id rfl)
    · exact .params fun a ha => covers_of_params hps ha
  | part _ hq ih => exact ih.part hq

theorem Of.inTable (hc : Of r ns c) (h : c.Contains p) : c.table.InTable p :=
  fun _ hp => hc.size_eq ▸ (hc.numbered h).lt hp

/-- What a plan of a codec stands for is one of its plans: `Contains` is closed under `shape`. -/
theorem Of.contains_shape (hc : Of r ns c) (h : c.Contains p) :
    c.Contains (.inline (c.table.shape p)) := by
  fun_induction Table.shape c.table p with
  | case1 => exact h
  | case2 id ih =>
    have hid : id < c.table.entries.length := hc.inTable h id rfl
    refine ih ?_
    rw [Table.plan, planAt, List.getElem?_eq_getElem hid]
    exact .entry (List.getElem_mem hid)

theorem Of.exists_route (hc : Of r ns c) (h : c.Contains p) :
    ∃ ids, c.table.route? c.table.size p = some (ids, c.table.shape p) ∧
      c.table.target? p = ids.getLast? ∧ ∀ id ∈ ids, id < c.table.size :=
  Table.exists_route (fun _ he => hc.inTable (.entry he)) (hc.inTable h)

theorem Of.contains_named (hc : Of r ns c) {key : String} (hk : key ∈ keys r ns) :
    c.Contains (.named ((keys r ns).idxOf key)) := by
  refine .root (.entry _) fun id hid => ?_
  cases hid
  exact hc.idxOf_lt hk

theorem Of.entryOf_lt (hc : Of r ns c) {key : String} (hk : key ∈ keys r ns) :
    entryOf c.table (keys r ns) key < c.table.size := by
  obtain ⟨ids, -, htarget, hlt⟩ := hc.exists_route (hc.contains_named hk)
  rw [entryOf, htarget]
  cases hlast : ids.getLast? with
  | none => exact hc.idxOf_lt hk
  | some id => exact hlt id (List.mem_of_getLast? hlast)

theorem Of.type_lt (hc : Of r ns c) : ∀ id ∈ c.types.values, id < c.table.size := by
  intro id hid
  obtain ⟨x, hx, rfl⟩ := List.mem_map.mp hid
  rw [hc.types_entries] at hx
  obtain ⟨e, he, rfl⟩ := List.mem_map.mp hx
  exact hc.entryOf_lt (key_mem_of_type he)

theorem Of.manifest_lt (hc : Of r ns c) : ∀ id ∈ c.manifest, id < c.table.size := by
  intro id hid
  rw [hc.manifest] at hid
  obtain ⟨root, hroot, rfl⟩ := Option.map_eq_some_iff.mp hid
  exact hc.idxOf_lt (key_mem_of_manifest hroot)

/-- Everything that is run on plans of a codec comes to an end. -/
structure Terminates (c : Codec) : Prop where
  /-- Types and the manifest are found at entries. -/
  types : ∀ id ∈ c.types.values, id < c.table.size
  manifest : ∀ id ∈ c.manifest, id < c.table.size
  /-- Each name is that of an entry, and there are at most as many hops as entries. -/
  routes : ∀ p, c.Contains p → ∃ ids, c.table.route? c.table.size p = some (ids, c.table.shape p) ∧
    c.table.target? p = ids.getLast? ∧ ∀ id ∈ ids, id < c.table.size
  /-- Whatever a run goes on with is a plan of the codec. -/
  parts : ∀ p q, c.Contains p → c.table.Part q p → c.Contains q
  defaults : ∀ p n, c.table.requiredDepth p < n →
    c.table.defaultWithin n p = some (c.table.defaultData p)
  objects : ∀ o n, c.table.requiredDepth (.inline (.object o)) ≤ n →
    c.table.objectWith (c.table.defaultWithin n) o = some (c.table.newObject o)
  variants : ∀ p v n, c.table.variantDepth p < n →
    c.table.admitsWithin n p v = some (c.table.admits p v)
  values : ∀ convention p key v n, c.table.readingDepth p v < n →
    c.table.convertWithin convention n p key v =
      some ((c.table.convert p key v).mapError (Fault.report convention))
  dicts : ∀ convention o d out n, c.table.readingDepth (.inline (.object o)) (.dict d) ≤ n →
    Reader.object c.table convention (c.table.convertWithin convention n) o d out =
      some ((c.table.populateObject o d out).report convention)
  choices : ∀ convention p key v n, c.table.readingDepth (.inline (.choices p)) v ≤ n →
    Reader.populateChoice c.table convention (c.table.convertWithin convention n) p key v =
      some ((c.table.populateChoice p key v).report convention)
  arguments : ∀ convention params args n,
    c.table.readingDepth (.inline (.object params)) (.list args) ≤ n →
    Reader.arguments c.table convention (c.table.convertWithin convention n) params args =
      some ((c.table.readArguments params args).mapError (Fault.report convention))

/-- Generated codecs have no run that goes on forever. Only required properties make a new instance
deeper, and only variants a search; reading goes deeper into the value, or else into variants. -/
theorem terminates_of_generate (h : generate r settings name = .ok c) : Terminates c := by
  obtain ⟨ns, hc⟩ := of_generate h
  exact {
    types := hc.type_lt
    manifest := hc.manifest_lt
    routes := fun p hp => hc.exists_route hp
    parts := fun p q hp hq => .part (hc.contains_shape hp) hq
    defaults := fun p n hn => Table.defaultWithin_eq hn
    objects := fun o n hn => Table.newObjectWithin_eq hn
    variants := fun p v n hn => Table.admitsWithin_eq hn v
    values := fun convention p key v n hn => Table.reads_within convention hn key
    dicts := fun convention o d out n hn => Table.object_within convention hn out
    choices := fun convention p key v n hn => Table.choice_within convention hn key
    arguments := fun convention params args n hn => Table.arguments_within convention hn }

theorem terminates_of_generate_forest :
    ∃ c, generate Forest.registry {} "forest" = .ok c ∧ Terminates c := by
  obtain ⟨c, hc⟩ := Forest.exists_codec
  exact ⟨c, hc, terminates_of_generate hc⟩

end Codec

end Interchange
