import Interchange.Proofs.Fidelity
import Interchange.Proofs.Openness

/-! # Arrays that are copied in one go

The items of such an array are not compared with their plan; all that `cloneItems` asks of them is
that they are scalars. So it agrees with copying item by item (`cloneEach`) as long as no scalar of
another kind comes in front of the first item that is no scalar, and parts there: item by item the
scalar is refused, in one go it is kept (`CopiesInOneGo`).
-/

namespace Interchange

open Plan

/-- Scalars have another `kindName` than all other data. -/
theorem Data.kindName_ne {x y : Data} (hx : x.isScalar = true) (hy : y.isScalar = false) :
    x.kindName ≠ y.kindName := by
  cases y with
  | any | function | array | object | choice =>
    cases x with
    | any | function | array | object | choice => cases hx
    | _ => simp [kindName]
  | _ => cases hy

namespace Table

variable {t : Table} {items : Plan} {x : Data} {xs : List Data} {place : String} {i : Nat}

/-- Copies an array item by item, each by `clone`, up to the first item that has no copy. -/
def cloneEach (t : Table) (items : Plan) (place : String) (i : Nat) (xs : List Data) :
    Except InstanceError (List Data) :=
  (xs.zipIdx i).mapM fun e => t.clone items e.1 (itemPlace place e.2)

/-- The error for an item of another kind than the plan's. -/
def itemMismatch (t : Table) (items : Plan) (place : String) (i : Nat) (x : Data) : InstanceError :=
  .mismatch (itemPlace place i) (t.kindName items) x.kindName

theorem cloneEach_cons (items : Plan) (place : String) (i : Nat) (x : Data) (xs : List Data) :
    t.cloneEach items place i (x :: xs) = (do
      let y ← t.clone items x (itemPlace place i)
      let ys ← t.cloneEach items place (i + 1) xs
      return y :: ys) := by
  rw [cloneEach, List.zipIdx_cons, List.mapM_cons]
  rfl

/-! ## Items that are copied one by one -/

theorem cloneItems_of_copiesItems (h : copiesItems (t.shape items) = true) (place : String) (i : Nat)
    (xs : List Data) : t.cloneItems items place i xs = t.cloneEach items place i xs := by
  induction xs generalizing i with
  | nil =>
    rw [cloneItems]
    rfl
  | cons x xs ih =>
    rw [cloneItems, cloneEach_cons, if_pos h, ih]

/-! ## Items that are copied in one go

Both ways keep the items as they stand as long as they pass a test, and refuse the first that does
not (`keepAll`). One way asks for a scalar, the other for the kind of the plan. -/

/-- Keeps the items as long as they pass a test, and refuses the next by `itemMismatch`. -/
def keepAll (t : Table) (items : Plan) (place : String) (test : Data → Bool) (i : Nat) :
    List Data → Except InstanceError (List Data)
  | [] => .ok []
  | x :: xs =>
    if test x then (t.keepAll items place test (i + 1) xs).map (x :: ·)
    else .error (t.itemMismatch items place i x)

section Keep

variable {p q : Data → Bool}

theorem map_cons_inj {a b : Except InstanceError (List Data)} :
    a.map (x :: ·) = b.map (x :: ·) ↔ a = b := by
  cases a <;> cases b <;> simp [Except.map]

theorem keepAll_of_forall (h : ∀ x ∈ xs, p x = true) (i : Nat) :
    t.keepAll items place p i xs = .ok xs := by
  induction xs generalizing i with
  | nil => rfl
  | cons x xs ih =>
    rw [List.forall_mem_cons] at h
    rw [keepAll, if_pos h.1, ih h.2]
    rfl

theorem keepAll_append {ys zs : List Data} (hys : ∀ y ∈ ys, p y = true) (hx : p x = false) (i : Nat) :
    t.keepAll items place p i (ys ++ x :: zs) = .error (t.itemMismatch items place (i + ys.length) x) := by
  induction ys generalizing i with
  | nil =>
    rw [List.nil_append, keepAll, hx]
    rfl
  | cons y ys ih =>
    rw [List.forall_mem_cons] at hys
    rw [List.cons_append, keepAll, if_pos hys.1, ih hys.2, List.length_cons, Nat.add_right_comm]
    rfl

/-- Either all items are kept, or `keepAll` refuses one that does not pass. -/
theorem keepAll_cases (t : Table) (items : Plan) (place : String) (p : Data → Bool) (xs : List Data)
    (i : Nat) : t.keepAll items place p i xs = .ok xs ∧ (∀ x ∈ xs, p x = true) ∨
      ∃ j x, t.keepAll items place p i xs = .error (t.itemMismatch items place j x) ∧ p x = false := by
  induction xs generalizing i with
  | nil => exact .inl ⟨rfl, by simp⟩
  | cons x xs ih =>
    rw [keepAll]
    cases hx : p x with
    | false => exact .inr ⟨i, x, rfl, hx⟩
    | true =>
      rcases ih (i + 1) with ⟨hok, hall⟩ | ⟨j, y, herror, hy⟩
      · refine .inl ⟨by rw [hok]; rfl, List.forall_mem_cons.mpr ⟨hx, hall⟩⟩
      · exact .inr ⟨j, y, by rw [herror]; rfl, hy⟩

/-- Of two tests for `keepAll`, the stricter keeps the same if and only if it is passed by all that
the other one keeps. -/
theorem keepAll_eq_iff (hpq : ∀ x, p x = true → q x = true)
    (hkinds : ∀ x y, q x = true → q y = false → x.kindName ≠ y.kindName) (xs : List Data) (i : Nat) :
    t.keepAll items place q i xs = t.keepAll items place p i xs ↔ ∀ x ∈ xs.takeWhile q, p x = true := by
  induction xs generalizing i with
  | nil => simp [keepAll]
  | cons x xs ih =>
    rw [keepAll, keepAll, List.takeWhile_cons]
    cases hq : q x with
    | false =>
      have hp : p x = false := Bool.eq_false_iff.mpr fun h => by simp [hpq x h] at hq
      simp [hp]
    | true =>
      cases hp : p x with
      | true =>
        simp only [if_true, List.forall_mem_cons, hp, true_and, ← ih (i + 1)]
        exact map_cons_inj
      | false =>
        -- Here the two part: the one refuses a scalar, the other none or something else.
        refine iff_of_false (fun heq => ?_) fun h => ?_
        · rcases keepAll_cases t items place q xs (i + 1) with ⟨hok, -⟩ | ⟨j, y, herror, hy⟩
          · rw [hok] at heq
            cases heq
          · rw [herror] at heq
            exact hkinds x y hq hy (InstanceError.mismatch.inj (Except.error.inj heq)).2.2.symm
        · rw [if_pos rfl, List.forall_mem_cons, hp] at h
          cases h.1

end Keep

/-- An array in one go asks its items to be scalars, whatever the plan. -/
theorem cloneItems_eq_keepAll (hs : copiesItems (t.shape items) = false) (place : String) (i : Nat)
    (xs : List Data) :
    t.cloneItems items place i xs = t.keepAll items place Data.isScalar i xs := by
  induction xs generalizing i with
  | nil =>
    rw [cloneItems]
    rfl
  | cons x xs ih =>
    rw [cloneItems, keepAll, if_neg (by simp [hs]), ih]
    split
    · cases t.keepAll items place Data.isScalar (i + 1) xs <;> rfl
    · rfl

theorem clone_of_holdsLeaf (h : (t.shape items).holdsLeaf x = true) (place : String) :
    t.clone items x place = .ok x := by
  have hcopy := copy?_of_holdsLeaf h
  rwa [← copiedAnywhere t x items place, toOption_eq_some_iff] at hcopy

theorem clone_of_not_holdsLeaf (hs : copiesItems (t.shape items) = false)
    (h : (t.shape items).holdsLeaf x = false) (place : String) :
    t.clone items x place = .error (.mismatch place (t.kindName items) x.kindName) := by
  rw [clone.eq_def]
  cases hs' : t.shape items with
  | any | array | object | choices => simp [hs', copiesItems] at hs
  | function b =>
    cases b with
    | false => simp [hs', copiesItems] at hs
    | true => cases x <;> simp_all [ShapeOf.holdsLeaf]
  | _ => cases x <;> simp_all [ShapeOf.holdsLeaf]

theorem cloneEach_eq_keepAll (hs : copiesItems (t.shape items) = false) (place : String) (i : Nat)
    (xs : List Data) :
    t.cloneEach items place i xs = t.keepAll items place (t.shape items).holdsLeaf i xs := by
  induction xs generalizing i with
  | nil => rfl
  | cons x xs ih =>
    rw [cloneEach_cons, keepAll, ih]
    cases hx : (t.shape items).holdsLeaf x with
    | true =>
      rw [clone_of_holdsLeaf hx]
      cases t.keepAll items place (t.shape items).holdsLeaf (i + 1) xs <;> rfl
    | false =>
      rw [clone_of_not_holdsLeaf hs hx]
      rfl

theorem isScalar_of_holdsLeaf (hs : copiesItems (t.shape items) = false)
    (h : (t.shape items).holdsLeaf x = true) : x.isScalar = true :=
  isScalar_of_conforms (by simp [hs]) (.leaf h)

/-! ## The two ways -/

/-- Copying an array (`cloneItems`) against copying it item by item (`cloneEach`). The two are the
same for items that hold other data. Arrays of scalars and of enumeration members are copied in one
go: if all are scalars the array is kept as it stands, and otherwise the first that is none is
refused. That is the same as copying item by item if and only if all scalars up to there are of the
kind of the plan; and what can be copied item by item has the same copy in one go. -/
structure CopiesInOneGo (t : Table) (items : Plan) (xs : List Data) (place : String) : Prop where
  each : copiesItems (t.shape items) = true →
    t.cloneItems items place 0 xs = t.cloneEach items place 0 xs
  keeps : copiesItems (t.shape items) = false → (∀ x ∈ xs, x.isScalar = true) →
    t.cloneItems items place 0 xs = .ok xs
  refuses : copiesItems (t.shape items) = false → ∀ ys x zs, xs = ys ++ x :: zs →
    (∀ y ∈ ys, y.isScalar = true) → x.isScalar = false →
    t.cloneItems items place 0 xs = .error (t.itemMismatch items place ys.length x)
  agrees_iff : copiesItems (t.shape items) = false →
    (t.cloneItems items place 0 xs = t.cloneEach items place 0 xs ↔
      ∀ x ∈ xs.takeWhile Data.isScalar, (t.shape items).holdsLeaf x = true)
  refines : ∀ ys, t.cloneEach items place 0 xs = .ok ys → t.cloneItems items place 0 xs = .ok ys

theorem copiesInOneGo (t : Table) (items : Plan) (xs : List Data) (place : String) :
    t.CopiesInOneGo items xs place where
  each hs := cloneItems_of_copiesItems hs place 0 xs
  keeps hs h := by rw [cloneItems_eq_keepAll hs, keepAll_of_forall h]
  refuses hs ys x zs hxs hys hx := by
    rw [cloneItems_eq_keepAll hs, hxs, keepAll_append hys hx, Nat.zero_add]
  agrees_iff hs := by
    rw [cloneItems_eq_keepAll hs, cloneEach_eq_keepAll hs]
    exact keepAll_eq_iff (fun x => isScalar_of_holdsLeaf hs) (fun x y => Data.kindName_ne) xs 0
  refines ys h := by
    cases hs : copiesItems (t.shape items) with
    | true => rwa [cloneItems_of_copiesItems hs]
    | false =>
      rw [cloneEach_eq_keepAll hs] at h
      rcases keepAll_cases t items place _ xs 0 with ⟨hok, hall⟩ | ⟨j, x, herror, -⟩
      · rw [hok] at h
        rw [cloneItems_eq_keepAll hs, keepAll_of_forall fun x hx => isScalar_of_holdsLeaf hs (hall x hx), h]
      · rw [herror] at h
        cases h

end Table

/-! ## An array with an item of another kind -/

namespace Panel

open Schema

def switches : Ty :=
  ((Ty.ofKind (.object ⟨[("flags", ⟨"flags", false, Ty.ofKind (.array (Ty.ofKind .boolean))⟩)]⟩ none)).named
    "Switches").withOrigin .jsonAndClient

def panel : Namespace := (Namespace.empty "panel").withType switches

def registry : Registry where
  namespaces := [panel]
  distinct := by decide

theorem exists_compiled : ∃ c, Codec.generate registry {} "panel" = .ok c ∧
    Codec.Compiled registry panel c :=
  Codec.exists_compiled (Codec.exists_of_isOk (by decide +kernel)) rfl (by decide)

def plan : ObjectPlan :=
  ⟨"Switches", [⟨"flags", false, .inline (.array (.inline .boolean))⟩], none⟩

/-- The flags hold a number. -/
def numbered : Object := ⟨⟨[("flags", some (.array [.integer 1]))]⟩, .closed⟩

theorem exists_switches {c : Codec} (hc : Codec.Compiled registry panel c) :
    ∃ t, c.object "Switches" = .ok t ∧ t.codec = c ∧ t.operations.has .clone = true ∧ t.plan = plan := by
  have he : ("Switches", switches) ∈ panel.types.entries := List.mem_of_getElem? (i := 0) rfl
  obtain ⟨t, ht, hcodec, hops, hplan⟩ := hc.exists_objectType rfl he
  refine ⟨t, ht, hcodec, ?_, ShapeOf.object.inj (Plan.inline.inj hplan)⟩
  rw [hops]
  rfl

theorem shape_boolean (t : Table) : t.shape (.inline .boolean) = .boolean := by rw [Table.shape]

theorem not_copiesItems_boolean (t : Table) :
    Table.copiesItems (t.shape (.inline .boolean)) = false := by
  rw [shape_boolean]
  rfl

theorem copyItem?_number (t : Table) :
    t.copyItem? (.inline .boolean) (.integer 1) = some (.integer 1) := by
  rw [Table.copyItem?, not_copiesItems_boolean]
  rfl

theorem copyObject?_numbered (t : Table) : t.copyObject? plan numbered = some numbered := by
  have hflags : t.copy? (.inline (.array (.inline .boolean))) (.array [.integer 1]) =
      some (.array [.integer 1]) := by
    rw [Table.copy?_array (by rw [Table.shape]), List.mapM_cons, copyItem?_number]
    rfl
  refine Table.copyObject?_eq_some_iff.mpr ⟨fun _ => some (.array [.integer 1]), .closed, ?_, rfl, rfl⟩
  intro q hq
  cases List.mem_singleton.mp hq
  exact congrArg (Option.map some) hflags

/-- The number passes for a flag when the flags are copied, and would not on its own. -/
theorem not_copied_each : ∃ c t, Codec.generate registry {} "panel" = .ok c ∧
    c.object "Switches" = .ok t ∧ t.plan = plan ∧ t.clone numbered = .ok numbered ∧
    c.table.cloneItems (.inline .boolean) "Switches.flags" 0 [.integer 1] = .ok [.integer 1] ∧
    c.table.cloneEach (.inline .boolean) "Switches.flags" 0 [.integer 1] =
      .error (.mismatch "Switches.flags[0]" "boolean" "integer") := by
  obtain ⟨c, hgen, hc⟩ := exists_compiled
  obtain ⟨t, ht, rfl, hops, hplan⟩ := exists_switches hc
  have hs := not_copiesItems_boolean t.codec.table
  refine ⟨t.codec, t, hgen, ht, hplan, ?_, ?_, ?_⟩
  · have hcopy : t.table.cloneObject t.plan numbered t.name = .ok numbered := by
      rw [hplan, Table.cloneObject_eq_ok_iff]
      exact copyObject?_numbered t.table
    rw [ObjectType.clone, ObjectType.require, Codec.require_eq_ok hops t.name, hcopy]
    rfl
  · rw [Table.cloneItems_eq_keepAll hs]
    rfl
  · have hkind : t.codec.table.kindName (.inline .boolean) = "boolean" := by
      rw [Table.kindName, shape_boolean]
      rfl
    rw [Table.cloneEach_eq_keepAll hs, shape_boolean, Table.keepAll, if_neg (by decide),
      Table.itemMismatch, hkind]
    rfl

end Panel

end Interchange
