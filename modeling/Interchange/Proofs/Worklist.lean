import Interchange.Proofs.Compiler
import Interchange.Proofs.Termination

/-! # The worklist of a compiler

After any calls every entry is queued. Each round (`Build.advance`) takes a definition from the
worklist, compiles it and enters its plan, and may queue more definitions meanwhile; these are
declared types that had no number before, so the rounds come to an end (`exists_drains`). At every
step an entry has been compiled or is queued, and only once (`Sound`). So the finished table has the
plan of each definition under the definition's own number (`Sound.entries_eq`), and all numbers in
it are those of entries. It is the table that generation makes.
-/

namespace Interchange

open Plan Schema
open Relation (ReflTransGen)

/-! ## Entries at every step -/

/-- The plan that `checkType` gives for a definition all of whose references have numbers. More keys
make no difference. -/
structure Definition.Compiled (r : Registry) (keys : List String) (d : Definition) (p : Plan) : Prop where
  covers : r.Covers keys d.space d.type
  check : ∀ keys', keys <+: keys' → checkType r keys' d.space d.display d.type = .ok p

theorem Definition.Compiled.mono {r : Registry} {keys keys' : List String} {d : Definition} {p : Plan}
    (h : d.Compiled r keys p) (hkeys : keys <+: keys') : d.Compiled r keys' p where
  covers target ht e he := hkeys.subset (h.covers target ht e he)
  check _ hkeys' := h.check _ (hkeys.trans hkeys')

namespace Compiler

variable {r : Registry} {s s' : Compiler} {done current log : List (Nat × Definition)} {d : Definition}
  {ds : List Definition} {id : Nat} {p : Plan} {w : Nat × Definition} {rest : List (Nat × Definition)}

/-- A compiler that has compiled the definitions `done`, and is about to compile the ones in
`current`. -/
structure Sound (r : Registry) (done current : List (Nat × Definition)) (s : Compiler) : Prop where
  numbered : s.Numbered
  /-- Every entry has been compiled or has yet to be, and only once. -/
  once : ((done ++ current ++ s.worklist).map (·.1)).Perm (List.range s.slots.length)
  /-- What has yet to be compiled stands under its own number, with a plan that accepts everything.
  -/
  waiting : ∀ w ∈ current ++ s.worklist, s.slots[w.1]? = some ⟨w.2, .inline .any⟩
  compiled : ∀ w ∈ done, ∃ p, s.slots[w.1]? = some ⟨w.2, p⟩ ∧ w.2.Compiled r s.keys p

theorem sound_empty (r : Registry) : Sound r [] [] {} where
  numbered := numbered_empty
  once := List.Perm.refl []
  waiting _ hw := by cases hw
  compiled _ hw := by cases hw

theorem getElem?_enqueue {x : Slot} (h : s.slots[id]? = some x) : (s.enqueue d).slots[id]? = some x := by
  rw [enqueue, List.getElem?_append_left (List.getElem?_eq_some_iff.mp h).1]
  exact h

theorem Sound.enqueue (h : Sound r done current s) (hd : d.key ∉ s.keys) :
    Sound r done current (s.enqueue d) where
  numbered := h.numbered.enqueue hd
  once := by
    have hmiddle : (done ++ current ++ (s.enqueue d).worklist).Perm
        ((s.slots.length, d) :: (done ++ current ++ s.worklist)) := List.perm_middle
    have hlength : (s.enqueue d).slots.length = s.slots.length + 1 := by simp [Compiler.enqueue]
    rw [hlength, List.range_succ]
    exact (hmiddle.map _).trans ((h.once.cons _).trans (List.perm_append_singleton _ _).symm)
  waiting w hw := by
    have hcases : w ∈ current ++ s.worklist ∨ w = (s.slots.length, d) := by
      simp only [Compiler.enqueue, List.mem_append, List.mem_cons] at hw ⊢
      tauto
    rcases hcases with hw | rfl
    · exact getElem?_enqueue (h.waiting w hw)
    · exact List.getElem?_concat_length
  compiled w hw := by
    obtain ⟨p, hslot, hp⟩ := h.compiled w hw
    refine ⟨p, getElem?_enqueue hslot, hp.mono ?_⟩
    rw [keys_enqueue]
    exact List.prefix_append _ _

theorem Sound.register (h : Sound r done current s) (d : Definition) :
    Sound r done current (s.register d).2 := by
  rcases register_cases s d with ⟨id, -, heq⟩ | ⟨hnone, heq⟩
  · rwa [heq]
  · rw [heq]
    exact h.enqueue (h.numbered.get?_eq_none_iff.mp hnone)

theorem Sound.registerAll (h : Sound r done current s) (ds : List Definition) :
    Sound r done current (s.registerAll ds) := by
  induction ds generalizing s with
  | nil => exact h
  | cons d ds ih => exact ih (h.register d)

/-- A definition is taken from the worklist: it becomes the current one of `Sound`. -/
theorem Sound.take (h : Sound r done [] s) (hw : s.worklist = w :: rest) :
    Sound r done [w] { s with worklist := rest } where
  numbered := h.numbered
  once := by
    have honce := h.once
    rw [hw] at honce
    simpa using honce
  waiting := by
    have hwaiting := h.waiting
    rwa [hw] at hwaiting
  compiled := h.compiled

/-- No other entry has the number of the one that is being compiled. -/
theorem Sound.ne_of_mem (h : Sound r done [(id, d)] s) (hw : w ∈ done ++ s.worklist) : w.1 ≠ id := by
  have hnodup := h.once.nodup_iff.mpr List.nodup_range
  rw [List.append_assoc, List.singleton_append, (List.perm_middle.map _).nodup_iff] at hnodup
  intro heq
  exact (List.nodup_cons.mp hnodup).1 (List.mem_map.mpr ⟨w, hw, heq⟩)

theorem definitions_fill (s : Compiler) (id : Nat) (p : Plan) : (s.fill id p).definitions = s.definitions := by
  apply List.ext_getElem?
  intro i
  simp only [definitions, fill, List.getElem?_map, List.getElem?_modify]
  cases s.slots[i]? with
  | none => rfl
  | some x => by_cases h : id = i <;> simp [h]

theorem keys_fill (s : Compiler) (id : Nat) (p : Plan) : (s.fill id p).keys = s.keys := by
  rw [keys, definitions_fill, keys]

theorem getElem?_fill_ne {i : Nat} (h : i ≠ id) : (s.fill id p).slots[i]? = s.slots[i]? := by
  simp [fill, h.symm]

theorem getElem?_fill_self {x : Slot} (h : s.slots[id]? = some x) :
    (s.fill id p).slots[id]? = some { x with plan := p } := by
  simp [fill, h]

/-- The plan of the current definition is entered by `fill`, and the definition is done. -/
theorem Sound.fill (h : Sound r done [(id, d)] s) (hp : d.Compiled r s.keys p) :
    Sound r (done ++ [(id, d)]) [] (s.fill id p) := by
  refine ⟨?_, ?_, fun w hw => ?_, fun w hw => ?_⟩
  · intro key i
    rw [keys_fill]
    exact h.numbered key i
  · have honce := h.once
    simpa [Compiler.fill] using honce
  · rw [getElem?_fill_ne (h.ne_of_mem (List.mem_append_right _ hw))]
    exact h.waiting w (List.mem_append_right _ hw)
  · rw [keys_fill]
    rcases List.mem_append.mp hw with hw | hw
    · rw [getElem?_fill_ne (h.ne_of_mem (List.mem_append_left _ hw))]
      exact h.compiled w hw
    · obtain rfl := List.mem_singleton.mp hw
      have hslot := h.waiting (id, d) (List.mem_append_left _ hw)
      exact ⟨p, getElem?_fill_self hslot, hp⟩

end Compiler

/-! ## Rounds -/

/-- Compiles a definition that has been taken from the worklist, and enters its plan. -/
def Build.advance (r : Registry) (id : Nat) (d : Definition) : Build Unit := do
  let s ← get
  let p ← compile r d.space (s.nameAt id) d.type
  modify (·.fill id p)

namespace Compiler

variable {r : Registry} {s s' s'' : Compiler} {done current log : List (Nat × Definition)} {d : Definition}
  {ds : List Definition} {id : Nat} {p : Plan} {w : Nat × Definition} {rest : List (Nat × Definition)}
  {e : GenerateError}

/-- A round of `advance` registers what the definition refers to, and enters its plan; or the
definition does not pass its checks. -/
theorem advance_cases (r : Registry) (id : Nat) (d : Definition) (s : Compiler) :
    (∃ p, Build.advance r id d s = .ok () ((s.registerAll (d.references r)).fill id p) ∧
      (s.Numbered → ∀ keys, (s.registerAll (d.references r)).keys <+: keys →
        checkType r keys d.space (s.nameAt id) d.type = .ok p)) ∨
    ∃ e ds, Build.advance r id d s = .error e (s.registerAll ds) ∧
      (s.Numbered → ∀ keys, (s.registerAll ds).keys <+: keys →
        checkType r keys d.space (s.nameAt id) d.type = .error e) := by
  have hadvance : Build.advance r id d s =
      (Build.compile r d.space (s.nameAt id) d.type >>= fun p => modify (·.fill id p)) s := rfl
  rw [hadvance]
  have hres := Build.compiles r d.space d.type (s.nameAt id) s
  generalize hcompile : Build.compile r d.space (s.nameAt id) d.type s = res at hres
  cases hres with
  | @ok p h => exact .inl ⟨p, Build.bind_of_ok hcompile, h⟩
  | @error e ds _ h => exact .inr ⟨e, ds, Build.bind_of_error hcompile, h⟩

theorem advance_eq_ok (h : Build.advance r id d s = .ok () s') :
    ∃ p, s' = (s.registerAll (d.references r)).fill id p ∧
      (s.Numbered → ∀ keys, (s.registerAll (d.references r)).keys <+: keys →
        checkType r keys d.space (s.nameAt id) d.type = .ok p) := by
  rcases advance_cases r id d s with ⟨p, heq, hp⟩ | ⟨e, ds, heq, -⟩
  · cases heq.symm.trans h
    exact ⟨p, rfl, hp⟩
  · cases heq.symm.trans h

theorem advance_eq_error (h : Build.advance r id d s = .error e s') (hs : s.Numbered) :
    ∃ keys, checkType r keys d.space (s.nameAt id) d.type = .error e := by
  rcases advance_cases r id d s with ⟨p, heq, -⟩ | ⟨e', ds, heq, he⟩
  · cases heq.symm.trans h
  · cases heq.symm.trans h
    exact ⟨_, he hs _ List.prefix_rfl⟩

theorem nameAt_eq (h : s.slots[id]? = some ⟨d, p⟩) : s.nameAt id = d.display := by
  simp only [nameAt, h]

/-- After a round of `advance` one definition more has been compiled. -/
theorem Sound.advance (h : Sound r done [(id, d)] s) (hs : Build.advance r id d s = .ok () s') :
    Sound r (done ++ [(id, d)]) [] s' := by
  obtain ⟨p, rfl, hp⟩ := advance_eq_ok hs
  rw [nameAt_eq (h.waiting (id, d) (by simp))] at hp
  refine (h.registerAll _).fill ⟨?_, hp h.numbered⟩
  exact Registry.covers_of_references fun e he => h.numbered.key_mem_registerAll he

/-- What is left to do at most: the queued definitions, and the declared types that have no number.
-/
def work (r : Registry) (s : Compiler) : Nat :=
  Registry.unseen r.qualifiedNames s.ids.keys + s.worklist.length

theorem work_register_le (h : d.key ∈ r.qualifiedNames) : work r (s.register d).2 ≤ work r s := by
  rcases register_cases s d with ⟨id, -, heq⟩ | ⟨hnone, heq⟩
  · rw [heq]
  · rw [heq]
    have hd := Dict.get?_eq_none_iff.mp hnone
    have hlt := Registry.unseen_append_lt h hd
    simp only [work, enqueue, Dict.keys_insert, if_neg hd, List.length_cons]
    omega

theorem work_registerAll_le (h : ∀ d ∈ ds, d.key ∈ r.qualifiedNames) :
    work r (s.registerAll ds) ≤ work r s := by
  induction ds generalizing s with
  | nil => exact Nat.le_refl _
  | cons d ds ih =>
    rw [List.forall_mem_cons] at h
    exact Nat.le_trans (ih h.2) (work_register_le h.1)

theorem work_advance_lt (hw : s.worklist = (id, d) :: rest)
    (h : Build.advance r id d { s with worklist := rest } = .ok () s') : work r s' < work r s := by
  obtain ⟨p, rfl, -⟩ := advance_eq_ok h
  have hle : work r (registerAll { s with worklist := rest } (d.references r)) ≤
      work r { s with worklist := rest } := work_registerAll_le fun _ => Registry.key_mem_of_destinations
  have hlt : work r { s with worklist := rest } < work r s := by simp [work, hw]
  exact Nat.lt_of_le_of_lt hle hlt

/-- Compiles everything that is queued, what was met last first. -/
def drain (r : Registry) (s : Compiler) : Except GenerateError Compiler :=
  match _ : s.worklist with
  | [] => .ok s
  | (id, d) :: rest =>
    match _ : Build.advance r id d { s with worklist := rest } with
    | .ok _ s' => drain r s'
    | .error e _ => .error e
termination_by work r s
decreasing_by exact work_advance_lt ‹_› ‹_›

/-- Compiles everything that is queued, and makes a table of the entries. -/
def finish (r : Registry) (s : Compiler) : Except GenerateError Table := do
  let s ← drain r s
  Table.ofEntries s.entries

/-- Rounds of `advance` that lead from one compiler to another, and the definitions that they
compile, in order. -/
inductive Drains (r : Registry) : Compiler → List (Nat × Definition) → Compiler → Prop
  | refl (s : Compiler) : Drains r s [] s
  | round {s s' s'' : Compiler} {id : Nat} {d : Definition} {rest log : List (Nat × Definition)}
      (hw : s.worklist = (id, d) :: rest)
      (hs : Build.advance r id d { s with worklist := rest } = .ok () s') (h : Drains r s' log s'') :
      Drains r s ((id, d) :: log) s''

/-- The next definition cannot be compiled: `advance` fails with `e`. -/
def Stuck (r : Registry) (s : Compiler) (e : GenerateError) : Prop :=
  ∃ id d rest s', s.worklist = (id, d) :: rest ∧
    Build.advance r id d { s with worklist := rest } = .error e s'

theorem Sound.drains (h : Sound r done [] s) (hs : Drains r s log s') : Sound r (done ++ log) [] s' := by
  induction hs generalizing done with
  | refl => rwa [List.append_nil]
  | round hw hs _ ih =>
    rw [List.append_cons]
    exact ih ((h.take hw).advance hs)

/-- Each round does some of the `work`. -/
theorem Drains.length_add_work_le (h : Drains r s log s') : log.length + work r s' ≤ work r s := by
  induction h with
  | refl => simp
  | round hw hs _ ih =>
    have hlt := work_advance_lt hw hs
    rw [List.length_cons]
    omega

theorem Drains.prefix_keys (h : Drains r s log s') : s.keys <+: s'.keys := by
  induction h with
  | refl => exact List.prefix_rfl
  | @round s s' s'' id d rest log hw hs _ ih =>
    obtain ⟨p, rfl, -⟩ := advance_eq_ok hs
    rw [keys_fill] at ih
    exact (keys_prefix_registerAll { s with worklist := rest } _).trans ih

/-- The rounds of `drain` come to an end, when nothing is queued or a definition cannot be compiled.
-/
theorem exists_drains (r : Registry) (s : Compiler) : ∃ log s', Drains r s log s' ∧
    (s'.worklist = [] ∧ drain r s = .ok s' ∨ ∃ e, Stuck r s' e ∧ drain r s = .error e) := by
  fun_induction drain r s with
  | case1 s hw => exact ⟨[], s, .refl s, .inl ⟨hw, rfl⟩⟩
  | case2 s id d rest hw u s' hs ih =>
    obtain ⟨log, s'', hlog, hend⟩ := ih
    exact ⟨_, s'', .round hw hs hlog, hend⟩
  | case3 s id d rest hw e s' hs => exact ⟨[], s, .refl s, .inr ⟨e, ⟨id, d, rest, s', hw, hs⟩, rfl⟩⟩

/-! ## The search for definitions -/

/-- What a compiler has met, and what it has yet to look into. -/
def discovery (s : Compiler) : Discovery := ⟨s.definitions, s.worklist.map (·.2)⟩

theorem Numbered.discovery_register (h : s.Numbered) (d : Definition) :
    (s.register d).2.discovery = s.discovery.enter d := by
  rw [Discovery.enter]
  rcases register_cases s d with ⟨id, hid, heq⟩ | ⟨hnone, heq⟩
  · rw [heq, if_pos]
    exact List.mem_of_getElem? ((h _ _).mp hid)
  · rw [heq, if_neg]
    · simp only [discovery, definitions_enqueue]
      rfl
    · exact h.get?_eq_none_iff.mp hnone

theorem Numbered.discovery_registerAll (h : s.Numbered) (ds : List Definition) :
    (s.registerAll ds).discovery = s.discovery.enterAll ds := by
  induction ds generalizing s with
  | nil => rfl
  | cons d ds ih =>
    have hrest := ih (h.register d)
    rw [h.discovery_register] at hrest
    exact hrest

theorem discovery_fill (s : Compiler) (id : Nat) (p : Plan) : (s.fill id p).discovery = s.discovery := by
  rw [discovery, definitions_fill]
  rfl

/-- A round of a compiler is one of the search: `Discovery.finish` finds the same before and after
it. -/
theorem Numbered.finish_discovery (h : s.Numbered) (hw : s.worklist = (id, d) :: rest)
    (hs : Build.advance r id d { s with worklist := rest } = .ok () s') :
    s.discovery.finish r = s'.discovery.finish r := by
  have htaken : Numbered { s with worklist := rest } := h
  have hpending : s.discovery.pending = d :: rest.map (·.2) := by rw [discovery, hw, List.map_cons]
  obtain ⟨p, rfl, -⟩ := advance_eq_ok hs
  rw [Discovery.finish_of_pending hpending, discovery_fill, htaken.discovery_registerAll]
  rfl

theorem Drains.finish_discovery (hs : Drains r s log s') (h : Sound r done [] s) :
    s.discovery.finish r = s'.discovery.finish r := by
  induction hs generalizing done with
  | refl => rfl
  | round hw hs _ ih => exact (h.numbered.finish_discovery hw hs).trans (ih ((h.take hw).advance hs))

end Compiler

/-! ## Finished tables -/

/-- The name of an entry stands in a plan, at any depth. -/
def Plan.Names (p : Plan) (id : Nat) : Prop := ReflTransGen Plan.Part (.named id) p

theorem Registry.Numbered.lt_of_names {r : Registry} {keys : List String} {p : Plan} {id : Nat}
    (h : r.Numbered keys p) (hid : p.Names id) : id < keys.length := by
  induction hid with
  | refl => exact h.lt rfl
  | tail _ hq ih => exact ih (h.part hq)

/-- Only what accepts everything by its type has the plan that accepts everything, so an entry that
still is as `enqueue` starts it can be told. -/
theorem Plan.eq_any_iff_of_checkType {r : Registry} {keys : List String} {space owner : String} {t : Ty} {p : Plan}
    (h : checkType r keys space owner t = .ok p) : p = .inline .any ↔ t.kind = .any := by
  obtain ⟨name, kind, origin⟩ := t
  rw [checkType] at h
  cases kind with
  | any =>
    cases h
    exact ⟨fun _ => rfl, fun _ => rfl⟩
  | boolean | integer | int64 | double | string | binary | function =>
    cases h
    simp
  | enumeration members =>
    simp only [checkKind] at h
    split at h
    · cases h
    · cases h
      simp
  | choices ts =>
    simp only [checkKind] at h
    split at h
    · cases h
    · obtain ⟨vs, -, h⟩ := Codec.bind_eq_ok_iff.mp h
      cases h
      simp
  | array items =>
    obtain ⟨q, -, h⟩ := Codec.bind_eq_ok_iff.mp h
    cases h
    simp
  | object ps a =>
    obtain ⟨qs, -, h⟩ := Codec.bind_eq_ok_iff.mp h
    obtain ⟨b, -, h⟩ := Codec.bind_eq_ok_iff.mp h
    cases h
    simp
  | reference target =>
    obtain ⟨d, -, h⟩ := Codec.bind_eq_ok_iff.mp h
    cases h
    simp

namespace Definition.Compiled

variable {r : Registry} {keys : List String} {d : Definition} {p : Plan}

theorem eq_ofType (h : d.Compiled r keys p) : ofType r keys d.space d.display d.type = p :=
  ofType_eq_of_checkType (h.check keys List.prefix_rfl)

theorem numbered (h : d.Compiled r keys p) : r.Numbered keys p := by
  rw [← h.eq_ofType]
  exact .type h.covers

theorem eq_any_iff (h : d.Compiled r keys p) : p = .inline .any ↔ d.type.kind = .any :=
  eq_any_iff_of_checkType (h.check keys List.prefix_rfl)

end Definition.Compiled

namespace Compiler

section Drained

variable {r : Registry} {s : Compiler} {done : List (Nat × Definition)} (h : Sound r done [] s)
  (hw : s.worklist = [])

include h hw

theorem Sound.perm_range : (done.map (·.1)).Perm (List.range s.slots.length) := by
  have honce := h.once
  rwa [hw, List.append_nil, List.append_nil] at honce

/-- Nothing is left out: where the worklist is empty every slot is `Compiled`. -/
theorem Sound.compiled_of_getElem? {id : Nat} {x : Slot} (hx : s.slots[id]? = some x) :
    x.definition.Compiled r s.keys x.plan := by
  have hlt := (List.getElem?_eq_some_iff.mp hx).1
  obtain ⟨w, hdone, rfl⟩ := List.mem_map.mp ((h.perm_range hw).mem_iff.mpr (List.mem_range.mpr hlt))
  obtain ⟨p, hslot, hp⟩ := h.compiled w hdone
  rw [hx] at hslot
  cases hslot
  exact hp

/-- A compiler that has compiled everything has the plans that `ofDefinition` gives for the numbers
of all keys. -/
theorem Sound.entries_eq : s.entries = s.definitions.map (ofDefinition r s.keys) := by
  rw [Compiler.entries, Compiler.definitions, List.map_map]
  apply List.map_congr_left
  intro x hx
  obtain ⟨id, hid⟩ := List.mem_iff_getElem?.mp hx
  rw [Function.comp_apply, ofDefinition, (h.compiled_of_getElem? hw hid).eq_ofType]
  rfl

end Drained

end Compiler

end Interchange
