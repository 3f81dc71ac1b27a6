import Interchange.Proofs.Worklist

/-! # Calls of a compiler

A compiler takes calls in any order, and goes on after one that has failed (`run`). What it answers
is what the numbers of all keys give in the end (`Sound.fst_run`). Then it is finished: the worklist
is drained, and a table is made of the entries (`Finished`).

Generation is the same as making one call for each type, function and event of a namespace
(`Codec.calls`) and finishing the compiler then: the table and all plans are equal
(`Codec.MadeByCalls`).
-/

namespace Interchange

open Plan Schema

namespace Compiler

/-- What can be asked of a compiler. -/
inductive Call
  | register (d : Definition)
  | compile (space owner : String) (t : Ty)
  | compileObject (space name : String) (properties : List Property) (additional : Option Ty)

inductive Answer
  | id (n : Nat)
  | plan (p : Plan)
  | object (o : ObjectPlan)

/-- An answer as a plan. -/
def Answer.toPlan : Answer → Plan
  | .id n => .named n
  | .plan p => p
  | .object o => .inline (.object o)

def Answer.object? : Answer → Option ObjectPlan
  | .object o => some o
  | _ => none

namespace Call

def build (r : Registry) : Call → Build Answer
  | .register d => do
    let n ← modifyGet (·.register d)
    return .id n
  | .compile space owner t => do
    let p ← Build.compile r space owner t
    return .plan p
  | .compileObject space name properties additional => do
    let o ← Build.compileObject r space name properties additional
    return .object o

/-- What a call registers if it does not fail, in the order of `registerAll`. -/
def definitions (r : Registry) : Call → List Definition
  | .register d => [d]
  | .compile space _ t => r.destinations space t.targets
  | .compileObject space _ properties additional =>
    r.destinations space (paramTargets properties ++ additionalTargets additional)

/-- What a call is answered when all keys are known, by `checkType`. -/
def check (r : Registry) (keys : List String) : Call → Except GenerateError Answer
  | .register d => .ok (.id (keys.idxOf d.key))
  | .compile space owner t => do
    let p ← checkType r keys space owner t
    return .plan p
  | .compileObject space name properties additional => do
    let ps ← checkProperties r keys space name (properties.map fun p => (p.name, p))
    let a ← checkAdditional r keys space name additional
    return .object ⟨name, ps, a⟩

/-- Makes the call by `build`. A compiler that has failed can still be used. -/
def perform (r : Registry) (c : Call) (s : Compiler) : Except GenerateError Answer × Compiler :=
  match c.build r s with
  | .ok a s' => (.ok a, s')
  | .error e s' => (.error e, s')

end Call

/-- Makes the calls in turn by `perform`. -/
def run (r : Registry) : List Call → Compiler → List (Except GenerateError Answer) × Compiler
  | [], s => ([], s)
  | c :: cs, s =>
    let (x, s') := c.perform r s
    let (xs, s'') := run r cs s'
    (x :: xs, s'')

/-- A new compiler after the calls. -/
def after (r : Registry) (calls : List Call) : Compiler := (run r calls {}).2

/-! ## Answers -/

variable {r : Registry} {s : Compiler} {c : Call} {calls : List Call} {keys : List String} {a : Answer}
  {d : Definition}

theorem propertyTargets_params (ps : List Property) :
    propertyTargets (ps.map fun p => (p.name, p)) = paramTargets ps := by
  induction ps with
  | nil => rfl
  | cons p ps ih =>
    rw [List.map_cons, propertyTargets, ih, paramTargets, paramTargets, List.flatMap_cons]

theorem Call.registers_build (r : Registry) (c : Call) :
    Build.Registers (c.build r) (c.definitions r) fun keys => c.check r keys := by
  cases c with
  | register d => exact (Build.registers_register d).map Answer.id
  | compile space owner t => exact (Build.compiles r space t owner).map Answer.plan
  | compileObject space name ps a =>
    simp only [build, definitions, check, Build.compileObject, bind_assoc, pure_bind,
      Build.destinations_append, ← propertyTargets_params]
    refine (Build.registers_properties (fun e _ => Build.compiles r space e.2.type) name).bind fun qs => ?_
    exact (Build.registers_additional (fun t _ => Build.compiles r space t) name).map _

/-- What a call does to a compiler: it registers `ds`, which are all of its `definitions` unless it
fails. -/
structure Call.Performed (r : Registry) (c : Call) (s : Compiler) (ds : List Definition) : Prop where
  snd_eq : (c.perform r s).2 = s.registerAll ds
  all : (∃ a, (c.perform r s).1 = .ok a) → ds = c.definitions r
  fst_eq : s.Numbered → ∀ keys, (c.perform r s).2.keys <+: keys → (c.perform r s).1 = c.check r keys

theorem Call.exists_performed (r : Registry) (c : Call) (s : Compiler) : ∃ ds, c.Performed r s ds := by
  have hres := c.registers_build r s
  generalize hbuild : c.build r s = res at hres
  cases hres with
  | @ok a h =>
    have hperform : c.perform r s = (.ok a, s.registerAll (c.definitions r)) := by rw [perform, hbuild]
    refine ⟨c.definitions r, by rw [hperform], fun _ => rfl, fun hs keys hkeys => ?_⟩
    rw [hperform] at hkeys ⊢
    exact (h hs keys hkeys).symm
  | @error e ds _ h =>
    have hperform : c.perform r s = (.error e, s.registerAll ds) := by rw [perform, hbuild]
    refine ⟨ds, by rw [hperform], fun hok => ?_, fun hs keys hkeys => ?_⟩
    · rw [hperform] at hok
      obtain ⟨a, ha⟩ := hok
      cases ha
    · rw [hperform] at hkeys ⊢
      exact (h hs keys hkeys).symm

theorem Sound.perform (h : Sound r [] [] s) (c : Call) : Sound r [] [] (c.perform r s).2 := by
  obtain ⟨ds, hds⟩ := c.exists_performed r s
  rw [hds.snd_eq]
  exact h.registerAll ds

/-- Calls only register definitions, so they keep `Sound`, with every entry queued. -/
theorem Sound.run (h : Sound r [] [] s) (calls : List Call) : Sound r [] [] (run r calls s).2 := by
  induction calls generalizing s with
  | nil => exact h
  | cons c calls ih => exact ih (h.perform c)

theorem sound_after (r : Registry) (calls : List Call) : Sound r [] [] (after r calls) :=
  (sound_empty r).run calls

theorem keys_prefix_perform (r : Registry) (c : Call) (s : Compiler) : s.keys <+: (c.perform r s).2.keys := by
  obtain ⟨ds, hds⟩ := c.exists_performed r s
  rw [hds.snd_eq]
  exact keys_prefix_registerAll s ds

theorem keys_prefix_run (r : Registry) (calls : List Call) (s : Compiler) : s.keys <+: (run r calls s).2.keys := by
  induction calls generalizing s with
  | nil => exact List.prefix_rfl
  | cons c calls ih => exact (keys_prefix_perform r c s).trans (ih _)

/-- Numbers do not change, so all answers can be given by `check` in the end as well. -/
theorem Sound.fst_run (h : Sound r [] [] s) (hkeys : (Compiler.run r calls s).2.keys <+: keys) :
    (Compiler.run r calls s).1 = calls.map fun c => c.check r keys := by
  induction calls generalizing s with
  | nil => rfl
  | cons c calls ih =>
    obtain ⟨ds, hds⟩ := c.exists_performed r s
    rw [List.map_cons, ← ih (h.perform c) hkeys,
      ← hds.fst_eq h.numbered keys ((keys_prefix_run r calls _).trans hkeys)]
    rfl

/-- A call that has not failed has registered all that it refers to, its `definitions`. -/
theorem Sound.key_mem_run (h : Sound r [] [] s) (hkeys : (Compiler.run r calls s).2.keys <+: keys)
    (hc : c ∈ calls) (ha : c.check r keys = .ok a) (hd : d ∈ c.definitions r) :
    d.key ∈ (Compiler.run r calls s).2.keys := by
  induction calls generalizing s with
  | nil => cases hc
  | cons c' calls ih =>
    rcases List.mem_cons.mp hc with rfl | hc
    · obtain ⟨ds, hds⟩ := c.exists_performed r s
      have hfst := hds.fst_eq h.numbered keys ((keys_prefix_run r calls _).trans hkeys)
      have hmem := h.numbered.key_mem_registerAll ((hds.all ⟨a, hfst.trans ha⟩).symm ▸ hd)
      rw [← hds.snd_eq] at hmem
      exact (keys_prefix_run r calls _).subset hmem
    · exact ih (h.perform c') hkeys hc

/-- Calls of which none fails register everything that they refer to, in order. -/
theorem Sound.snd_run (h : Sound r [] [] s) (hok : ∀ c ∈ calls, ∀ keys, ∃ a, c.check r keys = .ok a) :
    (Compiler.run r calls s).2 = s.registerAll (calls.flatMap (Call.definitions r)) := by
  induction calls generalizing s with
  | nil => rfl
  | cons c calls ih =>
    rw [List.forall_mem_cons] at hok
    obtain ⟨ds, hds⟩ := c.exists_performed r s
    obtain ⟨a, ha⟩ := hok.1 (c.perform r s).2.keys
    have hstate : (c.perform r s).2 = s.registerAll (c.definitions r) := by
      rw [hds.snd_eq, hds.all ⟨a, (hds.fst_eq h.numbered _ List.prefix_rfl).trans ha⟩]
    calc (Compiler.run r (c :: calls) s).2
      _ = (c.perform r s).2.registerAll (calls.flatMap (Call.definitions r)) := ih (h.perform c) hok.2
      _ = s.registerAll ((c :: calls).flatMap (Call.definitions r)) := by
        rw [hstate, ← registerAll_append, List.flatMap_cons]

/-- An object by itself, as a type. -/
def objectType (name : String) (properties : List Property) (additional : Option Ty) : Ty :=
  ⟨some name, .object ⟨properties.map fun p => (p.name, p)⟩ additional, {}⟩

/-- The numbers in an answer are those of keys, as `Registry.Numbered` puts it. -/
theorem Call.numbered_of_check (ha : c.check r keys = .ok a) (hc : ∀ d ∈ c.definitions r, d.key ∈ keys) :
    r.Numbered keys a.toPlan := by
  cases c with
  | register d =>
    cases ha
    exact .named (List.idxOf_lt_length_of_mem (hc d (by simp [definitions])))
  | compile space owner t =>
    obtain ⟨p, hp, ha⟩ := Codec.bind_eq_ok_iff.mp ha
    cases ha
    rw [Answer.toPlan, ← ofType_eq_of_checkType hp]
    exact .type (Registry.covers_of_references (d := ⟨"", "", space, t⟩) hc)
  | compileObject space name ps b =>
    obtain ⟨qs, hqs, ha⟩ := Codec.bind_eq_ok_iff.mp ha
    obtain ⟨q, hq, ha⟩ := Codec.bind_eq_ok_iff.mp ha
    cases ha
    have hp : checkType r keys space name (objectType name ps b) = .ok (.inline (.object ⟨name, qs, q⟩)) := by
      rw [objectType, checkType, Option.getD_some, checkKind, hqs, hq]
      rfl
    have htargets : (objectType name ps b).targets = paramTargets ps ++ additionalTargets b := by
      rw [objectType, Ty.targets, kindTargets, propertyTargets_params]
    rw [definitions, ← htargets] at hc
    rw [Answer.toPlan, ← ofType_eq_of_checkType hp]
    exact .type (Registry.covers_of_references (d := ⟨"", "", space, objectType name ps b⟩) hc)

end Compiler

/-! ## Generation -/

namespace Codec

open Compiler

variable {r : Registry} {ns : Namespace} {settings : Settings} {name : String} {c : Codec}

/-- The `paramLists` of a namespace, with the names of their plans. -/
def namedParams (ns : Namespace) : List (String × List Property) :=
  (ns.functions.entries.flatMap fun (name, f) => (qualify ns.name name ++ ".params", f.params) ::
    f.results.toList.map fun ps => (qualify ns.name name ++ ".results", ps)) ++
  ns.events.entries.map fun (name, e) => (qualify ns.name name, e.params)

/-- What is asked of a compiler for a namespace. -/
def calls (ns : Namespace) : List Call :=
  (ns.types.entries.map fun (name, t) => .register (typeDefinition ns.name name t)) ++
  (ns.manifest.toList.map fun t => .register (manifestDefinition ns.name t)) ++
  (namedParams ns).map fun x => .compileObject ns.name x.1 x.2 none

/-- The plans of the `namedParams` that a codec has. -/
def paramPlans (c : Codec) : List ObjectPlan :=
  (c.functions.values.flatMap fun f => f.params :: f.results.toList) ++ c.events.values.map (·.params)

theorem map_snd_namedParams (ns : Namespace) : (namedParams ns).map (·.2) = ns.paramLists := by
  simp [namedParams, Namespace.paramLists, Dict.values, List.map_flatMap, List.flatMap_map, Function.comp_def]

/-- The parameters refer to what functions and events refer to, the `callTargets`. -/
theorem flatMap_namedParams (ns : Namespace) :
    ((namedParams ns).flatMap fun x => paramTargets x.2) = callTargets ns := by
  have hresults (results : Option (List Property)) :
      results.toList.flatMap paramTargets = paramTargets (results.getD []) := by
    cases results <;> simp [paramTargets]
  simp [namedParams, callTargets, Dict.values, List.flatMap_assoc, List.flatMap_map, hresults]

theorem Of.paramPlans_eq (hc : Of r ns c) : c.paramPlans =
    (namedParams ns).map fun x => ofParams r (keys r ns) ns.name x.1 x.2 := by
  simp [paramPlans, namedParams, hc.functions, hc.events, Dict.values, List.map_flatMap, List.flatMap_map,
    functionPlan, eventPlan, keys, Option.toList_map, Function.comp_def]

theorem flatMap_register {α : Type} (as : List α) (f : α → Definition) :
    (as.map fun a => Call.register (f a)).flatMap (Call.definitions r) = as.map f := by
  rw [List.flatMap_map, List.map_eq_flatMap]
  rfl

/-- The calls register the `roots` of the search. -/
theorem flatMap_calls (r : Registry) (ns : Namespace) :
    (calls ns).flatMap (Call.definitions r) = roots r ns := by
  have hparams : ((namedParams ns).map fun x => Call.compileObject ns.name x.1 x.2 none).flatMap
      (Call.definitions r) = r.destinations ns.name (callTargets ns) := by
    rw [← flatMap_namedParams, Registry.destinations, List.filterMap_flatMap, List.flatMap_map]
    simp [Call.definitions, additionalTargets, Registry.destinations]
  rw [calls, roots, List.flatMap_append, List.flatMap_append, hparams, flatMap_register, flatMap_register]

theorem check_params (hv : r.validate = .ok ()) (hns : ns ∈ r.namespaces) {ps : List Property}
    (hps : ps ∈ ns.paramLists) (keys : List String) (owner : String) :
    (Call.compileObject ns.name owner ps none).check r keys = .ok (.object (ofParams r keys ns.name owner ps)) := by
  have h := checkParams_eq hv hns hps keys owner
  rw [checkParams] at h
  obtain ⟨qs, hqs, h⟩ := bind_eq_ok_iff.mp h
  rw [Call.check, hqs, checkAdditional, ← Except.ok.inj h]
  rfl

/-- No call fails where the registry is valid, since its types pass `checkType`. -/
theorem exists_check (hv : r.validate = .ok ()) (hns : ns ∈ r.namespaces) :
    ∀ c ∈ calls ns, ∀ keys, ∃ a, c.check r keys = .ok a := by
  intro c hc keys
  rcases List.mem_append.mp hc with hc | hc
  · rcases List.mem_append.mp hc with hc | hc
    · obtain ⟨e, -, rfl⟩ := List.mem_map.mp hc
      exact ⟨_, rfl⟩
    · obtain ⟨t, -, rfl⟩ := List.mem_map.mp hc
      exact ⟨_, rfl⟩
  · obtain ⟨x, hx, rfl⟩ := List.mem_map.mp hc
    have hps : x.2 ∈ ns.paramLists := map_snd_namedParams ns ▸ List.mem_map.mpr ⟨x, hx, rfl⟩
    exact ⟨_, check_params hv hns hps keys x.1⟩

/-- The compiler finds the `definitions` that the search finds. -/
theorem finish_discovery_after (hv : r.validate = .ok ()) (hns : ns ∈ r.namespaces) :
    (after r (calls ns)).discovery.finish r = definitions r ns := by
  rw [after, (sound_empty r).snd_run (exists_check hv hns), flatMap_calls,
    numbered_empty.discovery_registerAll]
  rfl

/-- Whatever is found in a valid registry can be compiled. -/
theorem not_stuck (hv : r.validate = .ok ()) (hns : ns ∈ r.namespaces) {log : List (Nat × Definition)}
    {s : Compiler} (hs : Drains r (after r (calls ns)) log s) {e : GenerateError} : ¬Stuck r s e := by
  intro h
  obtain ⟨id, d, rest, s', hw, hadvance⟩ := h
  have hsound := sound_after r (calls ns)
  have hnext := (hsound.drains hs).take hw
  have hslot : s.slots[id]? = some ⟨d, .inline .any⟩ := hnext.waiting (id, d) (by simp)
  have hd : d ∈ definitions r ns := by
    rw [← finish_discovery_after hv hns, hs.finish_discovery hsound]
    exact Discovery.mem_finish_of_found r (List.mem_map.mpr ⟨_, List.mem_of_getElem? hslot, rfl⟩)
  obtain ⟨keys, herror⟩ := advance_eq_error hadvance hnext.numbered
  rw [checks_of_holdsIn hv (holdsIn_of_definitions hns hd)] at herror
  cases herror

/-- All definitions of a namespace of a valid registry are compiled. -/
theorem exists_drained (hv : r.validate = .ok ()) (hns : ns ∈ r.namespaces) :
    ∃ log s, Drains r (after r (calls ns)) log s ∧ s.worklist = [] ∧
      drain r (after r (calls ns)) = .ok s ∧ s.definitions = definitions r ns := by
  obtain ⟨log, s, hs, ⟨hw, hdrain⟩ | ⟨e, hstuck, -⟩⟩ := exists_drains r (after r (calls ns))
  · refine ⟨log, s, hs, hw, hdrain, ?_⟩
    have hpending : s.discovery.pending = [] := by rw [discovery, hw, List.map_nil]
    rw [← finish_discovery_after hv hns, hs.finish_discovery (sound_after r (calls ns)),
      Discovery.finish_of_nil hpending]
    rfl
  · exact absurd hstuck (not_stuck hv hns hs)

/-- Finishing the compiler makes the table that `generate` makes, or fails as that does. -/
theorem finish_after (hv : r.validate = .ok ()) (hns : ns ∈ r.namespaces) :
    Compiler.finish r (after r (calls ns)) =
      Table.ofEntries ((definitions r ns).map (ofDefinition r (keys r ns))) := by
  obtain ⟨log, s, hs, hw, hdrain, hdefs⟩ := exists_drained hv hns
  rw [Compiler.finish, hdrain, ok_bind, ((sound_after r (calls ns)).drains hs).entries_eq hw,
    Compiler.keys, hdefs, keys]

end Codec

/-! ## The whole run -/

namespace Compiler

variable {r : Registry} {calls : List Call} {table : Table} {log : List (Nat × Definition)} {s : Compiler}

/-- A finished table, for which the definitions in `log` have been compiled, in order. -/
structure Finished (r : Registry) (calls : List Call) (table : Table) (log : List (Nat × Definition))
    (s : Compiler) : Prop where
  drains : Drains r (after r calls) log s
  worklist : s.worklist = []
  /-- Each entry has been compiled once, from the definition that was registered for it. -/
  once : (log.map (·.1)).Perm (List.range table.size)
  own : ∀ w ∈ log, s.definitions[w.1]? = some w.2
  /-- These are the definitions that a search finds, with the plans that the numbers of their keys
  give. -/
  definitions : s.definitions = (after r calls).discovery.finish r
  entries : table.entries = s.definitions.map (ofDefinition r s.keys)
  /-- No entry has been left with the plan that accepts everything. -/
  any_iff : ∀ id d, s.definitions[id]? = some d → (table.plan id = .inline .any ↔ d.type.kind = .any)
  /-- The answers were right already, and whatever they refer to has an entry. -/
  answers : (run r calls {}).1 = calls.map fun c => c.check r s.keys
  registered : ∀ c ∈ calls, ∀ a, c.check r s.keys = .ok a → ∀ d ∈ c.definitions r, d.key ∈ s.keys
  /-- All numbers are those of entries. -/
  entry_lt : ∀ e ∈ table.entries, ∀ id, e.plan.Names id → id < table.size
  answer_lt : ∀ a, .ok a ∈ (run r calls {}).1 → ∀ id, a.toPlan.Names id → id < table.size

theorem Drains.answers_eq (h : Drains r (after r calls) log s) :
    (run r calls {}).1 = calls.map fun c => c.check r s.keys := (sound_empty r).fst_run h.prefix_keys

/-- What a call has registered stays registered. -/
theorem Drains.key_mem (h : Drains r (after r calls) log s) {c : Call} (hc : c ∈ calls) {a : Answer}
    (ha : c.check r s.keys = .ok a) {d : Definition} (hd : d ∈ c.definitions r) : d.key ∈ s.keys :=
  h.prefix_keys.subset ((sound_empty r).key_mem_run h.prefix_keys hc ha hd)

/-- The numbers in answers are those of entries. -/
theorem Drains.lt_of_answer (h : Drains r (after r calls) log s) {a : Answer} (ha : .ok a ∈ (run r calls {}).1)
    {id : Nat} (hid : a.toPlan.Names id) : id < s.slots.length := by
  rw [h.answers_eq] at ha
  obtain ⟨c, hc, ha⟩ := List.mem_map.mp ha
  have hnumbered : r.Numbered s.keys a.toPlan := Call.numbered_of_check ha fun d hd => h.key_mem hc ha hd
  exact s.length_keys ▸ hnumbered.lt_of_names hid

theorem Drains.finished (h : Drains r (after r calls) log s) (hw : s.worklist = [])
    (ht : table.entries = s.entries) : Finished r calls table log s := by
  have hsound := (sound_after r calls).drains h
  rw [List.nil_append] at hsound
  have hsize : table.size = s.slots.length := by rw [Table.size, ht, Compiler.entries, List.length_map]
  have hpending : s.discovery.pending = [] := by rw [discovery, hw, List.map_nil]
  have hcompiled {x : Slot} (hx : x ∈ s.slots) : x.definition.Compiled r s.keys x.plan := by
    obtain ⟨id, hid⟩ := List.mem_iff_getElem?.mp hx
    exact hsound.compiled_of_getElem? hw hid
  exact {
    drains := h
    worklist := hw
    once := hsize ▸ hsound.perm_range hw
    own := by
      intro w hw
      obtain ⟨p, hslot, -⟩ := hsound.compiled w hw
      rw [Compiler.definitions, List.getElem?_map, hslot, Option.map_some]
    definitions := by
      rw [h.finish_discovery (sound_after r calls), Discovery.finish_of_nil hpending]
      rfl
    entries := ht.trans (hsound.entries_eq hw)
    any_iff := by
      intro id d hd
      rw [Compiler.definitions, List.getElem?_map] at hd
      obtain ⟨x, hx, rfl⟩ := Option.map_eq_some_iff.mp hd
      rw [Table.plan, planAt, ht, Compiler.entries, List.getElem?_map, hx, Option.map_some]
      exact (hcompiled (List.mem_of_getElem? hx)).eq_any_iff
    entry_lt := by
      intro e he id hid
      rw [ht] at he
      obtain ⟨x, hx, rfl⟩ := List.mem_map.mp he
      rw [hsize, ← s.length_keys]
      exact (hcompiled hx).numbered.lt_of_names hid
    answers := h.answers_eq
    registered := fun c hc a ha d hd => h.key_mem hc ha hd
    answer_lt := fun a ha id hid => hsize ▸ h.lt_of_answer ha hid }

/-- What is certain of a compiler that has taken the calls: `Sound` at every step, and an end. -/
structure CompilesEachOnce (r : Registry) (calls : List Call) : Prop where
  /-- After the calls, and after each round, keys have the numbers of their own entries, without
  gaps, and every entry has been compiled or is queued, and only once. -/
  sound : ∀ log s, Drains r (after r calls) log s → Sound r log [] s
  /-- So it is during the next call, which registers one definition after another. -/
  sound_call : ∀ ds, Sound r [] [] (registerAll (after r calls) ds)
  /-- During a round this is so for all definitions but the one that is compiled, whatever is
  registered. -/
  sound_within : ∀ log s w rest, Drains r (after r calls) log s → s.worklist = w :: rest →
    ∀ ds, Sound r log [w] (registerAll { s with worklist := rest } ds)
  /-- Each round does some of the work, so there are no more of them than queued definitions and
  declared types without a number. -/
  bounded : ∀ log s, Drains r (after r calls) log s → log.length + work r s ≤ work r (after r calls)
  /-- They end when nothing is queued any more, or else at a definition that cannot be compiled. -/
  ends : ∃ log s, Drains r (after r calls) log s ∧
    (s.worklist = [] ∧ finish r (after r calls) = Table.ofEntries s.entries ∨
      ∃ e, Stuck r s e ∧ finish r (after r calls) = .error e)
  finished : ∀ table, finish r (after r calls) = .ok table → ∃ log s, Finished r calls table log s

theorem exists_finish (r : Registry) (calls : List Call) : ∃ log s, Drains r (after r calls) log s ∧
    (s.worklist = [] ∧ finish r (after r calls) = Table.ofEntries s.entries ∨
      ∃ e, Stuck r s e ∧ finish r (after r calls) = .error e) := by
  obtain ⟨log, s, hs, ⟨hw, hdrain⟩ | ⟨e, hstuck, hdrain⟩⟩ := exists_drains r (after r calls)
  · exact ⟨log, s, hs, .inl ⟨hw, by rw [finish, hdrain, ok_bind]⟩⟩
  · exact ⟨log, s, hs, .inr ⟨e, hstuck, by rw [finish, hdrain]; rfl⟩⟩

theorem exists_finished (h : finish r (after r calls) = .ok table) : ∃ log s, Finished r calls table log s := by
  obtain ⟨log, s, hs, ⟨hw, hfinish⟩ | ⟨e, -, hfinish⟩⟩ := exists_finish r calls
  · exact ⟨log, s, hs.finished hw (Codec.entries_of_ofEntries (hfinish.symm.trans h))⟩
  · cases hfinish.symm.trans h

end Compiler

namespace Codec

open Compiler

variable {r : Registry} {ns : Namespace} {settings : Settings} {name : String} {c : Codec}

/-- The objects among the answers, the plans of parameters. -/
def objects (answers : List (Except GenerateError Answer)) : List ObjectPlan :=
  answers.filterMap fun x => x.toOption.bind Answer.object?

/-- A codec whose table and plans come from a compiler that has been called for the namespace. -/
structure MadeByCalls (r : Registry) (ns : Namespace) (c : Codec) : Prop where
  answered : ∀ x ∈ (run r (calls ns) {}).1, ∃ a, x = .ok a
  params : objects (run r (calls ns) {}).1 = c.paramPlans
  table : Compiler.finish r (after r (calls ns)) = .ok c.table
  param_lt : ∀ o ∈ c.paramPlans, ∀ id, (Plan.inline (.object o)).Names id → id < c.table.size

theorem objects_append (xs ys : List (Except GenerateError Answer)) :
    objects (xs ++ ys) = objects xs ++ objects ys := List.filterMap_append

theorem objects_registers {α : Type} (as : List α) (f : α → Definition) (keys : List String) :
    objects ((as.map fun a => Call.register (f a)).map fun c => c.check r keys) = [] := by
  simp [objects, Call.check, Except.toOption, Answer.object?]

theorem objects_params (hv : r.validate = .ok ()) (hns : ns ∈ r.namespaces) (keys : List String) :
    objects (((namedParams ns).map fun x => Call.compileObject ns.name x.1 x.2 none).map fun c => c.check r keys) =
      (namedParams ns).map fun x => ofParams r keys ns.name x.1 x.2 := by
  rw [objects, List.map_map, List.filterMap_map, ← List.filterMap_eq_map]
  apply List.filterMap_congr
  intro x hx
  have hps : x.2 ∈ ns.paramLists := map_snd_namedParams ns ▸ List.mem_map.mpr ⟨x, hx, rfl⟩
  simp only [Function.comp_apply, check_params hv hns hps]
  rfl

/-- The objects that a namespace asks for are its parameters. -/
theorem objects_calls (hv : r.validate = .ok ()) (hns : ns ∈ r.namespaces) (keys : List String) :
    objects ((calls ns).map fun c => c.check r keys) =
      (namedParams ns).map fun x => ofParams r keys ns.name x.1 x.2 := by
  rw [calls, List.map_append, List.map_append, objects_append, objects_append, objects_registers,
    objects_registers, objects_params hv hns, List.nil_append, List.nil_append]

theorem mem_of_objects {xs : List (Except GenerateError Answer)} {o : ObjectPlan} (h : o ∈ objects xs) :
    .ok (.object o) ∈ xs := by
  obtain ⟨x, hx, ho⟩ := List.mem_filterMap.mp h
  cases x with
  | error e => cases ho
  | ok a =>
    cases a with
    | object o' =>
      cases ho
      exact hx
    | _ => cases ho

theorem exists_madeByCalls (h : generate r settings name = .ok c) :
    ∃ ns, r.namespace? name = some ns ∧ MadeByCalls r ns c := by
  obtain ⟨ns, hv, hns, hc⟩ := exists_of_generate h
  obtain ⟨d, marks, hdraft, -, rfl⟩ := generate_eq_ok_iff.mp h
  obtain ⟨-, hname, -, -, htable⟩ := draft_eq_ok_iff.mp hdraft
  obtain rfl : d.ns = ns := Option.some.inj ((getNamespace_eq_ok_iff.mp hname).symm.trans hns)
  obtain ⟨log, s, hs, hw, -, hdefs⟩ := exists_drained hv hc.mem
  have hkeys : s.keys = keys r d.ns := by rw [Compiler.keys, hdefs, keys]
  have hanswers := (sound_empty r).fst_run (hkeys ▸ hs.prefix_keys)
  have hfinish := (finish_after hv hc.mem).trans htable
  have hparams : objects (run r (calls d.ns) {}).1 = (d.codec r settings marks).paramPlans := by
    rw [hanswers, objects_calls hv hc.mem, hc.paramPlans_eq]
  refine ⟨d.ns, hns, ?_, hparams, hfinish, fun o ho id hid => ?_⟩
  · intro x hx
    rw [hanswers] at hx
    obtain ⟨c, hc', rfl⟩ := List.mem_map.mp hx
    exact exists_check hv hc.mem c hc' _
  · obtain ⟨log, s, hfinished⟩ := exists_finished hfinish
    rw [← hparams] at ho
    exact hfinished.answer_lt (.object o) (mem_of_objects ho) id hid

end Codec

/-- However a compiler is called, every definition that it meets is compiled once, and finishing it
comes to an end (`CompilesEachOnce`). Generation makes the same table and plans
(`Codec.MadeByCalls`). -/
theorem Compiler.compilesEachOnce (r : Registry) : (∀ calls, CompilesEachOnce r calls) ∧
    ∀ settings name c, Codec.generate r settings name = .ok c →
      ∃ ns, r.namespace? name = some ns ∧ Codec.MadeByCalls r ns c := by
  refine ⟨fun calls => ?_, fun _ _ _ => Codec.exists_madeByCalls⟩
  have hsound : ∀ log s, Drains r (after r calls) log s → Sound r log [] s :=
    fun _ _ hs => (sound_after r calls).drains hs
  exact {
    sound := hsound
    sound_call := fun ds => (sound_after r calls).registerAll ds
    sound_within := fun log s w rest hs hw ds => ((hsound log s hs).take hw).registerAll ds
    bounded := fun _ _ hs => hs.length_add_work_le
    ends := exists_finish r calls
    finished := fun _ => exists_finished }

/-- The types of the forest refer to one another in circles; each of them is compiled once. -/
theorem Compiler.compilesEachOnce_forest : ∃ c log s,
    Codec.generate Forest.registry {} "forest" = .ok c ∧
      Finished Forest.registry (Codec.calls Forest.forest) c.table log s ∧ log.length = 3 := by
  obtain ⟨c, hc⟩ := Forest.exists_codec
  obtain ⟨hcalls, hgenerate⟩ := compilesEachOnce Forest.registry
  obtain ⟨ns, hns, hmade⟩ := hgenerate {} "forest" c hc
  obtain rfl : Forest.forest = ns := Option.some.inj hns
  obtain ⟨log, s, hfinished⟩ := (hcalls _).finished c.table hmade.table
  have hsize : c.table.size = 3 := by
    obtain ⟨ns, -, hns, hof⟩ := Codec.exists_of_generate hc
    obtain rfl : Forest.forest = ns := Option.some.inj hns
    rw [hof.size_eq]
    decide +kernel
  have hlength := hfinished.once.length_eq
  rw [List.length_map, List.length_range, hsize] at hlength
  exact ⟨c, log, s, hc, hfinished, hlength⟩

end Interchange
