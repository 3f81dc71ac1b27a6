import Interchange.Plan.Manifest
import Mathlib.Logic.Relation

/-! # What a walk through a manifest meets

From its root a manifest reaches objects through properties only (`Reaches`). A walk meets the
properties of all these objects and no others (`mem_walked_iff`), though it looks into no entry
twice: so it fails if and only if one of them cannot be read from a manifest, and its marks are
exactly what their types have to offer (`manifestMarks_of_readable`, `manifestMarks_of_unreadable`).
-/

namespace Interchange

open Plan Schema
open Relation (ReflTransGen)

/-- The kinds that cannot be read from a manifest, at which `walk` fails. -/
def Schema.Tag.isUnreadable : Tag → Bool
  | .binary | .any | .function => true
  | _ => false

/-- The operations that a manifest needs of the type of a property. -/
def Schema.Tag.needs? : Tag → Option Operations
  | .choices => some { parse := true, populate := true }
  | .object => some { parse := true }
  | _ => none

namespace Table

variable {t : Table} {visited : List Nat} {p p' : OwnedProperty} {ps rest : List OwnedProperty}
  {o o' : ObjectPlan} {root : Nat} {marks : Marks}

/-! ## Objects that are reached -/

/-- An object holds another one that is the type of one of its properties. -/
def Holds (t : Table) (o o' : ObjectPlan) : Prop := ∃ q ∈ o.properties, t.shape q.plan = .object o'

/-- An object reaches another one through properties, without arrays, variants or additional
properties. -/
def Reaches (t : Table) : ObjectPlan → ObjectPlan → Prop := ReflTransGen t.Holds

theorem mem_owned_iff : p ∈ o.owned ↔ p.owner = o.name ∧ p.property ∈ o.properties := by
  obtain ⟨owner, q⟩ := p
  simp only [ObjectOf.owned, List.mem_map, OwnedProperty.mk.injEq]
  refine ⟨fun h => ?_, fun h => ⟨q, h.2, h.1.symm, rfl⟩⟩
  obtain ⟨q', hq, ho, rfl⟩ := h
  exact ⟨ho.symm, hq⟩

/-! ## Steps -/

/-- What `walk` goes on with behind a property: the entries that are visited then, and the
properties that come next. -/
def opened (t : Table) (visited : List Nat) (p : OwnedProperty) : List Nat × List OwnedProperty :=
  match t.shape p.property.plan with
  | .object o =>
    match t.target? p.property.plan with
    | none => (visited, o.owned)
    | some id => if id ∈ visited then (visited, []) else (id :: visited, o.owned)
  | _ => (visited, [])

/-- What the type of a property has to offer by `needs?`, if it is an entry. -/
def marksOf (t : Table) (p : OwnedProperty) : Marks :=
  match (t.shape p.property.plan).tag.needs?, t.target? p.property.plan with
  | some operations, some id => [(id, operations)]
  | _, _ => []

/-- Adds the marks of a property to those of what follows, or fails. -/
def mark (t : Table) (p : OwnedProperty) (rest : Except GenerateError Marks) : Except GenerateError Marks :=
  if (t.shape p.property.plan).tag.isUnreadable then
    .error (.unsupportedManifestProperty p.owner p.property.name (t.kindName p.property.plan))
  else rest.map (t.marksOf p ++ ·)

theorem map_nil_append (rest : Except GenerateError Marks) : rest.map (([] : Marks) ++ ·) = rest := by
  cases rest <;> rfl

theorem walk_cons (t : Table) (visited : List Nat) (p : OwnedProperty) (rest : List OwnedProperty) :
    t.walk visited (p :: rest) =
      t.mark p (t.walk (t.opened visited p).1 ((t.opened visited p).2 ++ rest)) := by
  rw [walk, mark, opened, marksOf]
  cases hs : t.shape p.property.plan with
  | choices c =>
    simp only [ShapeOf.tag, Tag.isUnreadable]
    cases ht : t.target? p.property.plan <;> rfl
  | object o =>
    simp only [ShapeOf.tag, Tag.isUnreadable]
    cases ht : t.target? p.property.plan with
    | none => exact (map_nil_append _).symm
    | some id =>
      by_cases hv : id ∈ visited
      · simp only [hv, if_true]; rfl
      · simp only [hv, if_false]; rfl
  | binary | any | function => rfl
  | boolean | integer | int64 | double | string | enumeration | array => exact (map_nil_append _).symm

/-- The ways to go on behind a property, the cases of `opened`: only objects are opened, and no
entry is opened twice. -/
inductive Opening (t : Table) (visited : List Nat) (p : OwnedProperty) : Prop
  | other (hs : ∀ o, t.shape p.property.plan ≠ .object o) (h : t.opened visited p = (visited, []))
  | known {o : ObjectPlan} {id : Nat} (hs : t.shape p.property.plan = .object o)
      (ht : t.target? p.property.plan = some id) (hid : id ∈ visited)
      (h : t.opened visited p = (visited, []))
  | inline {o : ObjectPlan} (hs : t.shape p.property.plan = .object o)
      (ht : t.target? p.property.plan = none) (h : t.opened visited p = (visited, o.owned))
  | entry {o : ObjectPlan} {id : Nat} (hs : t.shape p.property.plan = .object o)
      (ht : t.target? p.property.plan = some id) (hid : id ∉ visited)
      (h : t.opened visited p = (id :: visited, o.owned))

theorem opening (t : Table) (visited : List Nat) (p : OwnedProperty) : t.Opening visited p := by
  by_cases ho : ∃ o, t.shape p.property.plan = .object o
  · obtain ⟨o, hs⟩ := ho
    cases ht : t.target? p.property.plan with
    | none => exact .inline hs ht (by simp only [opened, hs, ht])
    | some id =>
      by_cases hid : id ∈ visited
      · exact .known hs ht hid (by simp only [opened, hs, ht, hid, if_true])
      · exact .entry hs ht hid (by simp only [opened, hs, ht, hid, if_false])
  · refine .other (fun o hs => ho ⟨o, hs⟩) ?_
    unfold opened
    split
    · exact absurd ⟨_, ‹_›⟩ ho
    · rfl

/-! ## Length -/

/-- The sizes of the entries that are not visited yet. -/
noncomputable def closedSize (t : Table) (visited : List Nat) : List Nat → Nat
  | [] => 0
  | id :: ids => (if id ∈ visited then 0 else sizeOf (t.plan id)) + t.closedSize visited ids

/-- A bound on the properties that are still to be met, which `opened` keeps within. -/
noncomputable def work (t : Table) (visited : List Nat) (ps : List OwnedProperty) : Nat :=
  weight ps + t.closedSize visited (List.range t.size)

theorem closedSize_cons_le (t : Table) (visited : List Nat) (id : Nat) (ids : List Nat) :
    t.closedSize (id :: visited) ids ≤ t.closedSize visited ids := by
  induction ids with
  | nil => exact Nat.le_refl _
  | cons id' ids ih =>
    refine Nat.add_le_add ?_ ih
    split
    · exact Nat.zero_le _
    · rename_i hv
      exact Nat.le_of_eq (if_neg fun h => hv (List.mem_cons_of_mem _ h)).symm

theorem closedSize_cons {id : Nat} (hv : id ∉ visited) {ids : List Nat} (hid : id ∈ ids) :
    t.closedSize (id :: visited) ids + sizeOf (t.plan id) ≤ t.closedSize visited ids := by
  induction ids with
  | nil => cases hid
  | cons id' ids ih =>
    simp only [closedSize]
    by_cases he : id' = id
    · subst he
      have hle := t.closedSize_cons_le visited id' ids
      rw [if_pos List.mem_cons_self, if_neg hv]
      omega
    · have hlt := ih ((List.mem_cons.mp hid).resolve_left fun h => he h.symm)
      have hhead : id' ∈ id :: visited ↔ id' ∈ visited := by
        rw [List.mem_cons, or_iff_right he]
      simp only [hhead]
      omega

theorem weight_owned_le (o : ObjectPlan) : weight o.owned ≤ sizeOf (Plan.inline (.object o)) := by
  obtain ⟨name, properties, additional⟩ := o
  have hle := weight_map_le name properties
  simp only [ObjectOf.owned, Plan.inline.sizeOf_spec, ShapeOf.object.sizeOf_spec, ObjectOf.mk.sizeOf_spec]
  omega

/-- Each property that is met takes from the work: what it opens has been counted, either in the
property itself or in an entry that was not visited. -/
theorem work_opened_lt (t : Table) (visited : List Nat) (p : OwnedProperty) (rest : List OwnedProperty) :
    t.work (t.opened visited p).1 ((t.opened visited p).2 ++ rest) < t.work visited (p :: rest) := by
  have hcons := weight_lt_cons p rest
  cases t.opening visited p with
  | other _ h | known _ _ _ h =>
    rw [h]
    exact Nat.add_lt_add_right hcons _
  | inline hs ht h =>
    have hp := inline_of_target?_eq_none ht
    rw [hs] at hp
    rw [h, work, work, weight_append, weight]
    exact Nat.add_lt_add_right (Nat.add_lt_add_right (weight_owned_lt hp) _) _
  | @entry o id hs ht hid h =>
    have hlt := lt_size_of_target? ht hs
    have hplan := plan_of_target? ht
    rw [hs] at hplan
    have hclosed := closedSize_cons (t := t) hid (List.mem_range.mpr hlt)
    have howned := weight_owned_le o
    rw [hplan] at hclosed
    rw [h, work, work, weight_append]
    dsimp only
    omega

/-! ## Properties that are met -/

/-- The properties that `walk` meets, in order. -/
def walked (t : Table) (visited : List Nat) : List OwnedProperty → List OwnedProperty
  | [] => []
  | p :: rest => p :: t.walked (t.opened visited p).1 ((t.opened visited p).2 ++ rest)
termination_by ps => t.work visited ps
decreasing_by exact t.work_opened_lt visited p rest

/-- A walk marks what it meets, property by property. -/
theorem walk_eq_foldr (t : Table) (visited : List Nat) (ps : List OwnedProperty) :
    t.walk visited ps = (t.walked visited ps).foldr t.mark (.ok []) := by
  fun_induction walked t visited ps with
  | case1 => rw [walk, List.foldr_nil]
  | case2 visited p rest ih => rw [walk_cons, List.foldr_cons, ih]

theorem foldr_mark_of_readable (h : ∀ p ∈ ps, (t.shape p.property.plan).tag.isUnreadable = false) :
    ps.foldr t.mark (.ok []) = .ok (ps.flatMap t.marksOf) := by
  induction ps with
  | nil => rfl
  | cons p ps ih =>
    rw [List.forall_mem_cons] at h
    rw [List.foldr_cons, ih h.2, mark, h.1, List.flatMap_cons]
    rfl

/-- The first property that cannot be read is reported. -/
theorem foldr_mark_of_unreadable (h : ∃ p ∈ ps, (t.shape p.property.plan).tag.isUnreadable = true) :
    ∃ p ∈ ps, (t.shape p.property.plan).tag.isUnreadable = true ∧ ps.foldr t.mark (.ok []) =
      .error (.unsupportedManifestProperty p.owner p.property.name (t.kindName p.property.plan)) := by
  induction ps with
  | nil =>
    obtain ⟨p, hp, -⟩ := h
    cases hp
  | cons p ps ih =>
    cases hp : (t.shape p.property.plan).tag.isUnreadable with
    | true => exact ⟨p, List.mem_cons_self, hp, by rw [List.foldr_cons, mark, hp, if_pos rfl]⟩
    | false =>
      obtain ⟨p', hmem, hp'⟩ := h
      rcases List.mem_cons.mp hmem with he | hmem
      · rw [he, hp] at hp'
        cases hp'
      · obtain ⟨p'', hmem'', hp'', hrun⟩ := ih ⟨p', hmem, hp'⟩
        refine ⟨p'', List.mem_cons_of_mem _ hmem'', hp'', ?_⟩
        rw [List.foldr_cons, hrun, mark, hp]
        rfl

theorem mem_walked_of_mem (hp : p ∈ ps) : p ∈ t.walked visited ps := by
  fun_induction walked t visited ps with
  | case1 => exact hp
  | case2 visited p' rest ih =>
    rcases List.mem_cons.mp hp with rfl | hp
    · exact List.mem_cons_self
    · exact List.mem_cons_of_mem _ (ih (List.mem_append_right _ hp))

/-- Where an object is `walked`, all its properties are, unless its entry has been visited before.
-/
theorem owned_of_walked (hp : p ∈ t.walked visited ps) (hs : t.shape p.property.plan = .object o) :
    (∀ p' ∈ o.owned, p' ∈ t.walked visited ps) ∨ ∃ id ∈ visited, t.target? p.property.plan = some id := by
  fun_induction walked t visited ps with
  | case1 => cases hp
  | case2 visited p₀ rest ih =>
    have hnext : ∀ p' ∈ (t.opened visited p₀).2,
        p' ∈ p₀ :: t.walked (t.opened visited p₀).1 ((t.opened visited p₀).2 ++ rest) := fun p' hp' =>
      List.mem_cons_of_mem _ (mem_walked_of_mem (List.mem_append_left _ hp'))
    rcases List.mem_cons.mp hp with rfl | hp
    · cases t.opening visited p with
      | other hs' => exact absurd hs (hs' o)
      | known _ ht hid => exact .inr ⟨_, hid, ht⟩
      | inline hs' _ h | entry hs' _ _ h =>
        rw [hs] at hs'
        cases hs'
        refine .inl fun p' hp' => hnext p' ?_
        rwa [h]
    · rcases ih hp with hin | ⟨id, hid, ht⟩
      · exact .inl fun p' hp' => List.mem_cons_of_mem _ (hin p' hp')
      · cases t.opening visited p₀ with
        | other _ h | known _ _ _ h | inline _ _ h =>
          rw [h] at hid
          exact .inr ⟨id, hid, ht⟩
        | entry hs' ht' _ h =>
          rw [h] at hid
          rcases List.mem_cons.mp hid with rfl | hid
          · -- the entry has been visited with `p₀`, and stands for the same object
            have hplan := plan_of_target? ht
            rw [plan_of_target? ht', hs, hs'] at hplan
            cases hplan
            refine .inl fun p' hp' => hnext p' ?_
            rwa [h]
          · exact .inr ⟨id, hid, ht⟩

/-- Whatever is met is reached from a property that the walk starts with. -/
theorem exists_of_mem_walked (hp : p ∈ t.walked visited ps) :
    ∃ p₀ ∈ ps, p = p₀ ∨ ∃ o o', t.shape p₀.property.plan = .object o ∧ t.Reaches o o' ∧ p ∈ o'.owned := by
  fun_induction walked t visited ps with
  | case1 => cases hp
  | case2 visited p₀ rest ih =>
    rcases List.mem_cons.mp hp with rfl | hp
    · exact ⟨p, List.mem_cons_self, .inl rfl⟩
    · obtain ⟨p₁, hp₁, h⟩ := ih hp
      rcases List.mem_append.mp hp₁ with hopen | hrest
      · refine ⟨p₀, List.mem_cons_self, .inr ?_⟩
        cases t.opening visited p₀ with
        | other _ h' | known _ _ _ h' =>
          rw [h'] at hopen
          cases hopen
        | @inline o hs _ h' | @entry o _ hs _ _ h' =>
          rw [h'] at hopen
          rcases h with rfl | ⟨o', o'', hs', hreach, hp'⟩
          · exact ⟨o, o, hs, .refl, hopen⟩
          · exact ⟨o, o'', hs, hreach.head ⟨p₁.property, (mem_owned_iff.mp hopen).2, hs'⟩, hp'⟩
      · exact ⟨p₁, List.mem_cons_of_mem _ hrest, h⟩

/-- A walk from the root meets the properties of all objects that the root `Reaches`, and no others.
-/
theorem mem_walked_iff (hs : t.shape (.named root) = .object o) :
    p ∈ t.walked [root] o.owned ↔ ∃ o', t.Reaches o o' ∧ p ∈ o'.owned := by
  constructor
  · intro hp
    obtain ⟨p₀, hp₀, rfl | ⟨o₁, o₂, hs₁, hreach, hp⟩⟩ := exists_of_mem_walked hp
    · exact ⟨o, .refl, hp₀⟩
    · exact ⟨o₂, hreach.head ⟨p₀.property, (mem_owned_iff.mp hp₀).2, hs₁⟩, hp⟩
  · intro ⟨o', hreach, hp⟩
    -- what is met is closed under holding; the root's entry counts as visited, and it is opened
    induction hreach generalizing p with
    | refl => exact mem_walked_of_mem hp
    | @tail o₁ o₂ _ hheld ih =>
      obtain ⟨q, hq, hs₂⟩ := hheld
      have hmet : ⟨o₁.name, q⟩ ∈ t.walked [root] o.owned := ih (mem_owned_iff.mpr ⟨rfl, hq⟩)
      rcases owned_of_walked hmet hs₂ with hin | ⟨id, hid, ht⟩
      · exact hin p hp
      · cases List.mem_singleton.mp hid
        rw [shape, plan_of_target? ht, shape, hs₂] at hs
        cases hs
        exact mem_walked_of_mem hp

/-! ## Marks -/

/-- A property of an object that another one reaches. -/
def ReachesProperty (t : Table) (o : ObjectPlan) (q : PropertyPlan) : Prop :=
  ∃ o', t.Reaches o o' ∧ q ∈ o'.properties

theorem mem_marksOf_iff {m : Nat × Operations} : m ∈ t.marksOf p ↔
    t.target? p.property.plan = some m.1 ∧ (t.shape p.property.plan).tag.needs? = some m.2 := by
  obtain ⟨id, operations⟩ := m
  unfold marksOf
  split
  · rename_i hneeds ht
    rw [List.mem_singleton, ht, hneeds]
    simp only [Prod.mk.injEq, Option.some.injEq, eq_comm]
  · rename_i h
    refine ⟨fun hm => ?_, fun ⟨ht, hneeds⟩ => ?_⟩
    · cases hm
    · exact absurd ht (h _ _ hneeds)

/-- A manifest that can be read marks its root and the types of all properties that are reached. -/
theorem manifestMarks_of_readable (hs : t.shape (.named root) = .object o)
    (h : ∀ q, t.ReachesProperty o q → (t.shape q.plan).tag.isUnreadable = false) :
    t.manifestMarks root = .ok ((root, { parse := true }) :: (t.walked [root] o.owned).flatMap t.marksOf) := by
  have hmet : ∀ p ∈ t.walked [root] o.owned, (t.shape p.property.plan).tag.isUnreadable = false := by
    intro p hp
    obtain ⟨o', hreach, hp⟩ := (mem_walked_iff hs).mp hp
    exact h p.property ⟨o', hreach, (mem_owned_iff.mp hp).2⟩
  rw [manifestMarks, hs]
  simp only [walk_eq_foldr, foldr_mark_of_readable hmet]
  rfl

theorem mem_flatMap_marksOf_iff (hs : t.shape (.named root) = .object o) {m : Nat × Operations} :
    m ∈ (t.walked [root] o.owned).flatMap t.marksOf ↔ ∃ q, t.ReachesProperty o q ∧
      t.target? q.plan = some m.1 ∧ (t.shape q.plan).tag.needs? = some m.2 := by
  simp only [List.mem_flatMap, mem_walked_iff hs, mem_marksOf_iff]
  constructor
  · intro ⟨p, ⟨o', hreach, hp⟩, hm⟩
    exact ⟨p.property, ⟨o', hreach, (mem_owned_iff.mp hp).2⟩, hm⟩
  · intro ⟨q, ⟨o', hreach, hq⟩, hm⟩
    exact ⟨⟨o'.name, q⟩, ⟨o', hreach, mem_owned_iff.mpr ⟨rfl, hq⟩⟩, hm⟩

/-- A manifest with a `ReachesProperty` of an unreadable kind fails at one of those. -/
theorem manifestMarks_of_unreadable (hs : t.shape (.named root) = .object o)
    (h : ∃ q, t.ReachesProperty o q ∧ (t.shape q.plan).tag.isUnreadable = true) :
    ∃ o' q, t.Reaches o o' ∧ q ∈ o'.properties ∧ (t.shape q.plan).tag.isUnreadable = true ∧
      t.manifestMarks root = .error (.unsupportedManifestProperty o'.name q.name (t.kindName q.plan)) := by
  obtain ⟨q, ⟨o', hreach, hq⟩, hbad⟩ := h
  have hmet : ∃ p ∈ t.walked [root] o.owned, (t.shape p.property.plan).tag.isUnreadable = true :=
    ⟨⟨o'.name, q⟩, (mem_walked_iff hs).mpr ⟨o', hreach, mem_owned_iff.mpr ⟨rfl, hq⟩⟩, hbad⟩
  obtain ⟨p, hp, hbad, hrun⟩ := foldr_mark_of_unreadable hmet
  obtain ⟨o'', hreach, hp⟩ := (mem_walked_iff hs).mp hp
  obtain ⟨howner, hq⟩ := mem_owned_iff.mp hp
  refine ⟨o'', p.property, hreach, hq, hbad, ?_⟩
  rw [manifestMarks, hs]
  simp only [walk_eq_foldr, hrun, howner]
  rfl

/-! ## Termination -/

/-- A walk with a budget, of which each property that is met takes one. It goes on behind properties
that cannot be read, so it is at least as long as the walk. -/
def walkWithin (t : Table) : Nat → List Nat → List OwnedProperty → Option (Except GenerateError Marks)
  | _, _, [] => some (.ok [])
  | 0, _, _ :: _ => none
  | n + 1, visited, p :: rest =>
    (t.walkWithin n (t.opened visited p).1 ((t.opened visited p).2 ++ rest)).map (t.mark p)

/-- However objects refer to one another, a walk comes to an end: `work` is a budget that suffices.
-/
theorem walkWithin_eq {n : Nat} (h : t.work visited ps ≤ n) :
    t.walkWithin n visited ps = some (t.walk visited ps) := by
  induction n generalizing visited ps with
  | zero =>
    cases ps with
    | nil => rw [walkWithin, walk]
    | cons p rest =>
      have hlt := t.work_opened_lt visited p rest
      omega
  | succ n ih =>
    cases ps with
    | nil => rw [walkWithin, walk]
    | cons p rest =>
      have hlt := t.work_opened_lt visited p rest
      rw [walkWithin, ih (by omega), walk_cons, Option.map_some]

end Table

end Interchange
