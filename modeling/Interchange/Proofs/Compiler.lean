import Interchange.Proofs.Checking

/-! # Compilation in one pass

Generation numbers all definitions first, and makes their plans from the finished numbers. A
`Compiler` does both at once: what a type refers to is numbered while the type is compiled
(`Build.compile`), and waits on a worklist for its own turn. Until then its entry holds a plan that
accepts everything.

What compiling a type does to a compiler is to register what the type refers to, in order; and the
plan is the one that the finished numbers give, since numbers never change (`Build.Compiles`).
-/

namespace Interchange

open Plan Schema

/-! ## Compilers -/

/-- The entry of a definition; `enqueue` starts it with the plan that accepts everything. -/
structure Slot where
  definition : Definition
  plan : Plan

def Slot.entry (x : Slot) : Entry := ⟨x.definition.display, x.plan⟩

structure Compiler where
  /-- The numbers of the keys that have been met. -/
  ids : Dict Nat := ∅
  slots : List Slot := []
  /-- The definitions still to be compiled and their numbers, the last one first. -/
  worklist : List (Nat × Definition) := []

namespace Compiler

def definitions (s : Compiler) : List Definition := s.slots.map (·.definition)

def keys (s : Compiler) : List String := s.definitions.map (·.key)

def entries (s : Compiler) : List Entry := s.slots.map Slot.entry

/-- What diagnostics show for an entry, as `Table.nameAt` does. -/
def nameAt (s : Compiler) (id : Nat) : String :=
  match s.slots[id]? with
  | some x => x.definition.display
  | none => ""

/-- Gives the next number to a definition, and queues it. -/
def enqueue (s : Compiler) (d : Definition) : Compiler where
  ids := s.ids.insert d.key s.slots.length
  slots := s.slots ++ [⟨d, .inline .any⟩]
  worklist := (s.slots.length, d) :: s.worklist

/-- The number of a definition, which it gets now by `enqueue` if its key is new. -/
def register (s : Compiler) (d : Definition) : Nat × Compiler :=
  match s.ids.get? d.key with
  | some id => (id, s)
  | none => (s.slots.length, s.enqueue d)

def registerAll (s : Compiler) (ds : List Definition) : Compiler :=
  ds.foldl (fun s d => (s.register d).2) s

/-- Enters the plan of a definition that `enqueue` has given a number. -/
def fill (s : Compiler) (id : Nat) (p : Plan) : Compiler :=
  { s with slots := s.slots.modify id fun x => { x with plan := p } }

end Compiler

/-- Something to be done with a compiler. If it fails, what has been registered by then stays. -/
abbrev Build := EStateM GenerateError Compiler

namespace Build

mutual

/-- Compiles a type that stands in a namespace, and registers what it refers to. -/
def compile (r : Registry) (space owner : String) : Ty → Build Plan
  | ⟨name, kind, _⟩ => compileKind r space owner (name.getD owner) kind

def compileKind (r : Registry) (space owner name : String) : Kind Ty → Build Plan
  | .boolean => return .inline .boolean
  | .integer => return .inline .integer
  | .int64 => return .inline .int64
  | .double => return .inline .double
  | .string => return .inline .string
  | .binary => return .inline .binary
  | .any => return .inline .any
  | .function serializable => return .inline (.function serializable)
  | .enumeration members =>
    if members.isEmpty then throw (.emptyEnumeration owner)
    else return .inline (.enumeration ⟨name, members⟩)
  | .array items => do
    let p ← compile r space owner items
    return .inline (.array p)
  | .object ⟨properties⟩ additional => do
    let ps ← compileProperties r space name properties
    let a ← compileAdditional r space name additional
    return .inline (.object ⟨name, ps, a⟩)
  | .choices variants =>
    if variants.isEmpty then throw (.emptyChoices owner)
    else do
      let vs ← compileVariants r space owner variants
      return .inline (.choices ⟨name, vs⟩)
  | .reference target => do
    let d ← ofExcept (r.chase [] space target)
    let id ← modifyGet (·.register (.ofDeclared d))
    return .named id

def compileProperties (r : Registry) (space owner : String) :
    List (String × Property) → Build (List PropertyPlan)
  | [] => return []
  | (_, ⟨name, optional, type⟩) :: ps => do
    let p ← compile r space (owner ++ "." ++ name) type
    let rest ← compileProperties r space owner ps
    return ⟨name, optional, p⟩ :: rest

def compileAdditional (r : Registry) (space owner : String) : Option Ty → Build (Option Plan)
  | none => return none
  | some t => do
    let p ← compile r space owner t
    return some p

def compileVariants (r : Registry) (space owner : String) : List Ty → Build (List VariantPlan)
  | [] => return []
  | t :: ts => do
    let label ← ofExcept (checkLabel r space t)
    let p ← compile r space owner t
    let rest ← compileVariants r space owner ts
    return ⟨label, p⟩ :: rest

end

/-- Compiles the properties of an object, and its additional ones. -/
def compileObject (r : Registry) (space name : String) (properties : List Property) (additional : Option Ty) :
    Build ObjectPlan := do
  let ps ← compileProperties r space name (properties.map fun p => (p.name, p))
  let a ← compileAdditional r space name additional
  return ⟨name, ps, a⟩

end Build

/-! ## Numbers -/

namespace Compiler

variable {s : Compiler} {d : Definition} {ds ds' : List Definition} {key : String} {id : Nat}

/-- Each key has the number of its own entry, and each entry has a key; so no number is left out. -/
def Numbered (s : Compiler) : Prop := ∀ key id, s.ids.get? key = some id ↔ s.keys[id]? = some key

theorem length_keys (s : Compiler) : s.keys.length = s.slots.length := by simp [keys, definitions]

theorem Numbered.nodup (h : s.Numbered) : s.keys.Nodup := by
  rw [List.nodup_iff_getElem?_ne_getElem?]
  intro i j hij hj heq
  have hkey := List.getElem?_eq_getElem hj
  have hi := (h _ _).mpr (heq.trans hkey)
  have hj := (h _ _).mpr hkey
  exact absurd (Option.some.inj (hi.symm.trans hj)) (Nat.ne_of_lt hij)

theorem Numbered.get?_eq_none_iff (h : s.Numbered) : s.ids.get? key = none ↔ key ∉ s.keys := by
  rw [Option.eq_none_iff_forall_ne_some, List.mem_iff_getElem?, not_exists]
  exact forall_congr' fun id => not_congr (h key id)

theorem Numbered.eq_idxOf (h : s.Numbered) (hid : s.ids.get? key = some id) : id = s.keys.idxOf key := by
  obtain ⟨hlt, hkey⟩ := List.getElem?_eq_some_iff.mp ((h key id).mp hid)
  rw [← hkey, h.nodup.idxOf_getElem]

/-- Registration takes the number that is there, or the next one: `register` by cases. -/
theorem register_cases (s : Compiler) (d : Definition) :
    (∃ id, s.ids.get? d.key = some id ∧ s.register d = (id, s)) ∨
      s.ids.get? d.key = none ∧ s.register d = (s.slots.length, s.enqueue d) := by
  unfold register
  cases h : s.ids.get? d.key with
  | some id => exact .inl ⟨id, rfl, rfl⟩
  | none => exact .inr ⟨rfl, rfl⟩

@[simp] theorem definitions_enqueue (s : Compiler) (d : Definition) :
    (s.enqueue d).definitions = s.definitions ++ [d] := by
  simp [enqueue, definitions]

@[simp] theorem keys_enqueue (s : Compiler) (d : Definition) : (s.enqueue d).keys = s.keys ++ [d.key] := by
  simp [keys]

theorem numbered_empty : ({} : Compiler).Numbered := by
  intro key id
  simp [keys, definitions]

theorem Numbered.enqueue (h : s.Numbered) (hd : d.key ∉ s.keys) : (s.enqueue d).Numbered := by
  intro key id
  rw [keys_enqueue]
  by_cases hk : key = d.key
  · rw [hk, Compiler.enqueue, Dict.get?_insert_self, Option.some.injEq, ← s.length_keys]
    constructor
    · intro hid
      rw [← hid, List.getElem?_concat_length]
    · intro hid
      by_contra hne
      rw [List.getElem?_append] at hid
      split at hid
      · exact hd (List.mem_of_getElem? hid)
      · have hlt := (List.getElem?_eq_some_iff.mp hid).1
        simp only [List.length_singleton] at hlt
        omega
  · rw [Compiler.enqueue, Dict.get?_insert_ne _ _ hk, h key id, List.getElem?_append]
    split
    · rfl
    · rename_i hle
      rw [List.getElem?_eq_none (Nat.le_of_not_lt hle)]
      refine ⟨nofun, fun hid => ?_⟩
      exact absurd (List.mem_singleton.mp (List.mem_of_getElem? hid)) hk

theorem Numbered.register (h : s.Numbered) (d : Definition) : (s.register d).2.Numbered := by
  rcases register_cases s d with ⟨id, -, heq⟩ | ⟨hnone, heq⟩
  · rwa [heq]
  · rw [heq]
    exact h.enqueue (h.get?_eq_none_iff.mp hnone)

theorem Numbered.registerAll (h : s.Numbered) (ds : List Definition) : (s.registerAll ds).Numbered := by
  induction ds generalizing s with
  | nil => exact h
  | cons d ds ih => exact ih (h.register d)

theorem registerAll_append (s : Compiler) (ds ds' : List Definition) :
    s.registerAll (ds ++ ds') = (s.registerAll ds).registerAll ds' := List.foldl_append

/-- Numbers are given for good: `register` only appends keys. -/
theorem keys_prefix_register (s : Compiler) (d : Definition) : s.keys <+: (s.register d).2.keys := by
  rcases register_cases s d with ⟨id, -, heq⟩ | ⟨-, heq⟩
  · exact ⟨[], by rw [heq, List.append_nil]⟩
  · exact ⟨[d.key], by rw [heq, keys_enqueue]⟩

theorem keys_prefix_registerAll (s : Compiler) (ds : List Definition) : s.keys <+: (s.registerAll ds).keys := by
  induction ds generalizing s with
  | nil => exact List.prefix_rfl
  | cons d ds ih => exact (keys_prefix_register s d).trans (ih (s.register d).2)

/-- The number that `register` gives to a definition is the position of its key, also among more
keys. -/
theorem Numbered.fst_register (h : s.Numbered) (d : Definition) {keys : List String}
    (hkeys : (s.register d).2.keys <+: keys) : (s.register d).1 = keys.idxOf d.key := by
  obtain ⟨more, rfl⟩ := hkeys
  rcases register_cases s d with ⟨id, hid, heq⟩ | ⟨hnone, heq⟩
  · rw [heq, List.idxOf_append_of_mem (List.mem_of_getElem? ((h _ _).mp hid))]
    exact h.eq_idxOf hid
  · have hd := h.get?_eq_none_iff.mp hnone
    rw [heq, keys_enqueue, List.append_assoc, List.idxOf_append_of_notMem hd]
    simp [length_keys]

/-- A definition finds its key once `register` has been called with it. -/
theorem Numbered.key_mem_register (h : s.Numbered) (d : Definition) : d.key ∈ (s.register d).2.keys := by
  rcases register_cases s d with ⟨id, hid, heq⟩ | ⟨-, heq⟩
  · rw [heq]
    exact List.mem_of_getElem? ((h _ _).mp hid)
  · rw [heq, keys_enqueue]
    simp

theorem Numbered.key_mem_registerAll (h : s.Numbered) (hd : d ∈ ds) : d.key ∈ (s.registerAll ds).keys := by
  induction ds generalizing s with
  | nil => cases hd
  | cons e ds ih =>
    rcases List.mem_cons.mp hd with rfl | hd
    · exact (keys_prefix_registerAll _ ds).subset (h.key_mem_register d)
    · exact ih (h.register e) hd

end Compiler

/-! ## What is done to a compiler -/

namespace Build

open Compiler

variable {α β : Type} {s : Compiler} {ds ds' : List Definition} {r : Registry} {space owner : String}

/-- How an action ends on a compiler that registers `ds` for it, or only the first ones if it fails.
Its result is what `f` makes of the keys known by then, and of all keys that may come after them. -/
inductive Outcome (s : Compiler) (ds : List Definition) (f : List String → Except GenerateError α) :
    EStateM.Result GenerateError Compiler α → Prop
  | ok {a : α} (h : s.Numbered → ∀ keys, (s.registerAll ds).keys <+: keys → f keys = .ok a) :
      Outcome s ds f (.ok a (s.registerAll ds))
  | error {e : GenerateError} {done : List Definition} (hdone : done <+: ds)
      (h : s.Numbered → ∀ keys, (s.registerAll done).keys <+: keys → f keys = .error e) :
      Outcome s ds f (.error e (s.registerAll done))

/-- An action that registers `ds` in turn and gives what `f` makes of the keys: it ends on every
compiler by an `Outcome`. -/
def Registers (x : Build α) (ds : List Definition) (f : List String → Except GenerateError α) : Prop :=
  ∀ s, Outcome s ds f (x s)

theorem registers_pure (a : α) : Registers (pure a) [] fun _ => .ok a :=
  fun _ => .ok fun _ _ _ => rfl

theorem registers_throw (e : GenerateError) (ds : List Definition) :
    Registers (throw e : Build α) ds fun _ => .error e :=
  fun _ => .error (List.nil_prefix : [] <+: ds) fun _ _ _ => rfl

theorem registers_ofExcept (x : Except GenerateError α) : Registers (ofExcept x) [] fun _ => x := by
  cases x with
  | ok a => exact registers_pure a
  | error e => exact registers_throw e []

theorem bind_of_ok {x : Build α} {g : α → Build β} {a : α} {s' : Compiler} (h : x s = .ok a s') :
    (x >>= g) s = g a s' := by
  change EStateM.bind x g s = _
  rw [EStateM.bind, h]

theorem bind_of_error {x : Build α} {g : α → Build β} {e : GenerateError} {s' : Compiler}
    (h : x s = .error e s') : (x >>= g) s = .error e s' := by
  change EStateM.bind x g s = _
  rw [EStateM.bind, h]

theorem Registers.bind {x : Build α} {g : α → Build β} {f : List String → Except GenerateError α}
    {f' : α → List String → Except GenerateError β} (hx : Registers x ds f)
    (hg : ∀ a, Registers (g a) ds' (f' a)) :
    Registers (x >>= g) (ds ++ ds') fun keys => f keys >>= fun a => f' a keys := by
  intro s
  have hres := hx s
  generalize hfirst : x s = res at hres
  cases hres with
  | error hdone h =>
    rw [bind_of_error hfirst]
    refine .error (hdone.trans (List.prefix_append ds ds')) fun hs keys hkeys => ?_
    rw [h hs keys hkeys]
    rfl
  | @ok a h =>
    rw [bind_of_ok hfirst]
    have hres := hg a (s.registerAll ds)
    generalize g a (s.registerAll ds) = res at hres
    -- the keys that the first action knows come before those of the second one
    have hkeep : ∀ {more keys}, ((s.registerAll ds).registerAll more).keys <+: keys → s.Numbered →
        f keys = .ok a :=
      fun hkeys hs => h hs _ ((keys_prefix_registerAll _ _).trans hkeys)
    cases hres with
    | ok h' =>
      rw [← registerAll_append]
      refine .ok fun hs keys hkeys => ?_
      rw [registerAll_append] at hkeys
      rw [hkeep hkeys hs]
      exact h' (hs.registerAll ds) keys hkeys
    | error hdone h' =>
      rw [← registerAll_append]
      refine .error ((List.prefix_append_right_inj ds).mpr hdone) fun hs keys hkeys => ?_
      rw [registerAll_append] at hkeys
      rw [hkeep hkeys hs]
      exact h' (hs.registerAll ds) keys hkeys

/-- An action that `Registers` something, and whose result is changed afterwards. -/
theorem Registers.map {x : Build α} {f : List String → Except GenerateError α} (hx : Registers x ds f)
    (g : α → β) : Registers (x >>= fun a => pure (g a)) ds fun keys => f keys >>= fun a => pure (g a) := by
  have h := hx.bind fun a => registers_pure (g a)
  rwa [List.append_nil] at h

theorem registers_register (d : Definition) :
    Registers (modifyGet (·.register d)) [d] fun keys => .ok (keys.idxOf d.key) := by
  intro s
  exact .ok fun hs keys hkeys => congrArg _ (hs.fst_register d hkeys).symm

/-! ## Compiling types -/

theorem destinations_append (targets targets' : List String) :
    r.destinations space (targets ++ targets') =
      r.destinations space targets ++ r.destinations space targets' := List.filterMap_append

theorem registers_reference (r : Registry) (space owner name target : String) :
    Registers (compileKind r space owner name (.reference target)) (r.destinations space [target])
      fun keys => checkKind r keys space owner name (.reference target) := by
  simp only [compileKind, checkKind]
  cases hd : r.chase [] space target with
  | error e => exact registers_throw e _
  | ok d =>
    have hdest : r.destinations space [target] = [.ofDeclared d] := by
      simp [Registry.destinations, Registry.destination?_eq_some_iff.mpr hd]
    rw [hdest]
    exact (registers_register (.ofDeclared d)).map Plan.named

/-- A type registers what it refers to (`destinations`), and is compiled to the plan that
`checkType` gives for the numbers of all keys. -/
def Compiles (r : Registry) (space : String) (t : Ty) : Prop :=
  ∀ owner, Registers (compile r space owner t) (r.destinations space t.targets)
    fun keys => checkType r keys space owner t

theorem registers_properties {ps : List (String × Property)}
    (h : ∀ e ∈ ps, Compiles r space e.2.type) (owner : String) :
    Registers (compileProperties r space owner ps) (r.destinations space (propertyTargets ps))
      fun keys => checkProperties r keys space owner ps := by
  induction ps with
  | nil =>
    simp only [compileProperties, checkProperties]
    exact registers_pure []
  | cons e ps ih =>
    obtain ⟨key, name, optional, type⟩ := e
    rw [List.forall_mem_cons] at h
    simp only [compileProperties, checkProperties, propertyTargets, destinations_append]
    exact (h.1 _).bind fun p => (ih h.2).map _

theorem registers_additional {a : Option Ty} (h : ∀ t, a = some t → Compiles r space t) (owner : String) :
    Registers (compileAdditional r space owner a) (r.destinations space (additionalTargets a))
      fun keys => checkAdditional r keys space owner a := by
  cases a with
  | none =>
    simp only [compileAdditional, checkAdditional]
    exact registers_pure none
  | some t =>
    simp only [compileAdditional, checkAdditional]
    exact (h t rfl owner).map some

theorem registers_variants {ts : List Ty} (h : ∀ t ∈ ts, Compiles r space t) (owner : String) :
    Registers (compileVariants r space owner ts) (r.destinations space (typeTargets ts))
      fun keys => checkVariants r keys space owner ts := by
  induction ts with
  | nil =>
    simp only [compileVariants, checkVariants]
    exact registers_pure []
  | cons t ts ih =>
    rw [List.forall_mem_cons] at h
    simp only [compileVariants, checkVariants, typeTargets, destinations_append]
    -- a label registers nothing
    exact (registers_ofExcept (checkLabel r space t)).bind fun l => (h.1 owner).bind fun p => (ih h.2).map _

theorem compiles_of_parts {t : Ty} (h : ∀ u, Ty.Part u t → Compiles r space u) : Compiles r space t := by
  intro owner
  obtain ⟨name, kind, origin⟩ := t
  simp only [compile, checkType, Ty.targets]
  cases kind with
  | reference target => exact registers_reference r space owner _ target
  | object ps a =>
    simp only [compileKind, checkKind, kindTargets, destinations_append]
    refine (registers_properties (fun e he => h e.2.type (.property he)) _).bind fun ps => ?_
    refine (registers_additional (fun t ht => ?_) _).map _
    subst ht
    exact h t .additional
  | array items =>
    simp only [compileKind, checkKind, kindTargets]
    exact (h items .item owner).map _
  | choices ts =>
    simp only [compileKind, checkKind, kindTargets]
    split
    · exact registers_throw _ _
    · exact (registers_variants (fun t ht => h t (.variant ht)) owner).map _
  | enumeration members =>
    simp only [compileKind, checkKind, kindTargets]
    split
    · exact registers_throw _ _
    · exact registers_pure _
  | boolean | integer | int64 | double | string | any | binary | function =>
    simp only [compileKind, checkKind, kindTargets]
    exact registers_pure _

theorem compiles (r : Registry) (space : String) (t : Ty) : Compiles r space t :=
  compiles_of_parts fun u _ => compiles r space u
termination_by sizeOf t
decreasing_by exact Ty.Part.sizeOf_lt ‹_›

end Build

end Interchange
