import Interchange.Proofs.Compilation

/-! # Generation in two stages

The first stage checks a registry and compiles a namespace (`draft`); the second one walks through
the manifest, and adds what it asks for (`Draft.codec`). `generate_eq` shows that both make up
`generate`, and the errors of each stage are told apart (`GenerateError.isSchema`,
`GenerateError.isDraft`).
-/

namespace Interchange

open Plan Schema

namespace Codec

/-- A namespace that has been checked and compiled, with all that `generate` knows by then. -/
structure Draft where
  ns : Namespace
  /-- The origins of the declared types, behind all aliases. -/
  origins : List Origin
  table : Table

/-- Generation up to the walk through the manifest, the first stage of `generate`. -/
def draft (r : Registry) (name : String) : Except GenerateError Draft := do
  r.validate
  let ns ← r.getNamespace name
  let origins ← origins r ns
  checkManifest r ns
  let table ← Table.ofEntries ((definitions r ns).map (ofDefinition r (keys r ns)))
  return ⟨ns, origins, table⟩

namespace Draft

/-- The entry of the manifest's root. -/
def root (r : Registry) (d : Draft) : Nat := (keys r d.ns).idxOf (manifestKey d.ns.name)

/-- What the manifest asks for, by `Table.manifestMarks`. -/
def marks (r : Registry) (d : Draft) : Except GenerateError Table.Marks :=
  match d.ns.manifest with
  | none => .ok []
  | some _ => d.table.manifestMarks (d.root r)

def codec (r : Registry) (settings : Settings) (d : Draft) (marks : Table.Marks) : Codec where
  name := d.ns.name
  convention := settings.convention.getD (.ofErrorMessages d.ns.errorMessages)
  table := d.table
  types := ⟨d.ns.types.keys.zip (typeIds r d.ns d.table)⟩
  operations :=
    operationsOf d.table.size ((typeIds r d.ns d.table).zip (d.origins.map .ofOrigin) ++ marks)
  manifest := d.ns.manifest.map fun _ => d.root r
  functions := ⟨d.ns.functions.entries.map fun (name, f) =>
    (name, functionPlan r (keys r d.ns) d.ns.name name f)⟩
  events := ⟨d.ns.events.entries.map fun (name, e) =>
    (name, eventPlan r (keys r d.ns) d.ns.name name e)⟩

end Draft

variable {r : Registry} {settings : Settings} {name : String} {c : Codec} {d : Draft}

theorem generate_eq (r : Registry) (settings : Settings) (name : String) :
    generate r settings name = draft r name >>= fun d => (d.marks r).map (d.codec r settings) := by
  simp only [generate, draft, bind_assoc, pure_bind]
  congr 1
  funext _
  congr 1
  funext ns
  congr 1
  funext os
  congr 1
  funext _
  congr 1
  funext table
  cases hm : ns.manifest with
  | none =>
    simp only [Draft.marks, hm, Except.map, Draft.codec]
    rfl
  | some t =>
    simp only [Draft.marks, hm, Option.map_some]
    change table.manifestMarks (Draft.root r ⟨ns, os, table⟩) >>= _ = _
    cases table.manifestMarks (Draft.root r ⟨ns, os, table⟩) with
    | error e => rfl
    | ok marks =>
      simp only [Except.map, Draft.codec, hm]
      rfl

theorem draft_eq_ok_iff : draft r name = .ok d ↔
    r.validate = .ok () ∧ r.getNamespace name = .ok d.ns ∧ origins r d.ns = .ok d.origins ∧
      checkManifest r d.ns = .ok () ∧
      Table.ofEntries ((definitions r d.ns).map (ofDefinition r (keys r d.ns))) = .ok d.table := by
  obtain ⟨ns, os, table⟩ := d
  simp only [draft, bind_eq_ok_iff]
  constructor
  · intro ⟨_, hv, ns, hns, os, hos, _, hm, table, htable, h⟩
    cases h
    exact ⟨hv, hns, hos, hm, htable⟩
  · intro ⟨hv, hns, hos, hm, htable⟩
    exact ⟨(), hv, ns, hns, os, hos, (), hm, table, htable, rfl⟩

theorem getNamespace_eq_ok_iff {ns : Namespace} :
    r.getNamespace name = .ok ns ↔ r.namespace? name = some ns := by
  unfold Registry.getNamespace
  cases r.namespace? name <;> simp

/-- Where there are no marks without a manifest, a draft makes a codec `Of` its namespace. -/
theorem of_draft (h : draft r name = .ok d) {marks : Table.Marks} (hm : d.ns.manifest = none → marks = []) :
    Of r d.ns (d.codec r settings marks) := by
  obtain ⟨-, hns, hos, -, htable⟩ := draft_eq_ok_iff.mp h
  exact ⟨Registry.mem_of_namespace? (getNamespace_eq_ok_iff.mp hns), rfl, ⟨d.origins, marks, hos, hm, rfl⟩,
    entries_of_ofEntries htable, rfl, rfl, rfl⟩

theorem generate_eq_ok_iff : generate r settings name = .ok c ↔
    ∃ d marks, draft r name = .ok d ∧ d.marks r = .ok marks ∧ d.codec r settings marks = c := by
  rw [generate_eq, bind_eq_ok_iff]
  constructor
  · intro ⟨d, hd, h⟩
    cases hm : d.marks r with
    | error e =>
      rw [hm] at h
      cases h
    | ok marks =>
      rw [hm] at h
      cases h
      exact ⟨d, marks, hd, hm, rfl⟩
  · intro ⟨d, marks, hd, hm, h⟩
    exact ⟨d, hd, by rw [hm, ← h]; rfl⟩

theorem generate_eq_error_iff {e : GenerateError} : generate r settings name = .error e ↔
    draft r name = .error e ∨ ∃ d, draft r name = .ok d ∧ d.marks r = .error e := by
  rw [generate_eq]
  cases draft r name with
  | error e' => simp [bind, Except.bind]
  | ok d =>
    change (d.marks r).map (d.codec r settings) = .error e ↔ _
    cases hm : d.marks r with
    | error e' => simp [Except.map, hm]
    | ok marks => simp [Except.map, hm]

end Codec

/-! ## Errors -/

/-- The errors of a schema by itself, those that `Registry.validate` reports, whatever namespace is
generated. -/
def GenerateError.isSchema : GenerateError → Bool
  | .unknownNamespace _ | .danglingReference _ _ | .referenceCycle _ | .emptyChoices _ | .emptyEnumeration _ =>
    true
  | _ => false

/-- The errors that are left for `draft` where a namespace of a valid schema is compiled. -/
def GenerateError.isDraft : GenerateError → Bool
  | .unknownNamespace _ | .manifestNotObject _ _ | .recursiveRequired _ | .recursiveChoices _ => true
  | _ => false

theorem exists_of_forM_eq_error {ε α : Type} {f : α → Except ε Unit} {as : List α} {e : ε}
    (h : as.forM f = .error e) : ∃ a ∈ as, f a = .error e := by
  induction as with
  | nil => cases h
  | cons a as ih =>
    change (f a >>= fun _ => as.forM f) = _ at h
    cases ha : f a with
    | error e' =>
      rw [ha] at h
      cases h
      exact ⟨a, List.mem_cons_self, ha⟩
    | ok _ =>
      rw [ha] at h
      obtain ⟨a', ha', hf⟩ := ih h
      exact ⟨a', List.mem_cons_of_mem _ ha', hf⟩

theorem exists_mapM_eq_ok {ε α β : Type} {f : α → Except ε β} {as : List α}
    (h : ∀ a ∈ as, ∃ b, f a = .ok b) : ∃ bs, as.mapM f = .ok bs := by
  induction as with
  | nil => exact ⟨[], rfl⟩
  | cons a as ih =>
    rw [List.forall_mem_cons] at h
    obtain ⟨b, hb⟩ := h.1
    obtain ⟨bs, hbs⟩ := ih h.2
    exact ⟨b :: bs, by rw [List.mapM_cons, hb, hbs]; rfl⟩

namespace Registry

variable {r : Registry} {space target : String} {t : Ty} {e : GenerateError}

theorem isSchema_of_lookup (h : r.lookup space target = .error e) : e.isSchema = true := by
  unfold lookup getNamespace at h
  cases hns : r.namespace? space with
  | none =>
    rw [hns] at h
    cases h
    rfl
  | some home =>
    simp only [hns, bind, Except.bind] at h
    split at h
    · cases h
    · cases h
      rfl

theorem isSchema_of_chase {seen : List String} (h : r.chase seen space target = .error e) :
    e.isSchema = true := by
  fun_induction chase r seen space target with
  | case1 _ _ _ e' hlookup =>
    cases h
    exact isSchema_of_lookup hlookup
  | case2 =>
    cases h
    rfl
  | case3 _ _ _ _ _ _ _ _ ih => exact ih h
  | case4 => cases h

theorem isSchema_of_follow (h : r.follow space t = .error e) : e.isSchema = true := by
  unfold follow at h
  split at h
  · rename_i target _
    cases hc : r.chase [] space target with
    | error e' =>
      rw [hc] at h
      cases h
      exact isSchema_of_chase hc
    | ok d =>
      rw [hc] at h
      cases h
  · cases h

theorem isSchema_of_validate (h : r.validate = .error e) : e.isSchema = true := by
  obtain ⟨ns, -, h⟩ := exists_of_forM_eq_error h
  obtain ⟨demand, -, h⟩ := exists_of_forM_eq_error h
  cases demand with
  | leads t =>
    rw [meet] at h
    cases hf : r.follow ns.name t with
    | error e' =>
      rw [hf] at h
      cases h
      exact isSchema_of_follow hf
    | ok x =>
      rw [hf] at h
      cases h
  | someVariant | someMember =>
    rw [meet] at h
    split at h
    · cases h
      rfl
    · cases h

theorem exists_target (h : t.kind.isReference = true) : ∃ target, t.kind = .reference target := by
  cases hk : t.kind with
  | reference target => exact ⟨target, rfl⟩
  | _ =>
    rw [hk] at h
    cases h

theorem follow_of_chase {d : Declared} (ht : t.kind = .reference target)
    (hd : r.chase [] space target = .ok d) : r.follow space t = .ok d.resolved := by
  rw [follow_of_reference ht, hd]
  rfl

/-- In a validated registry every type can be followed, whether it is a reference or not. -/
theorem exists_follow_of_validate (hv : r.validate = .ok ()) (h : r.HoldsIn space t) :
    ∃ x, r.follow space t = .ok x := by
  cases ht : t.kind.isReference with
  | false => exact ⟨_, follow_of_isReference ht⟩
  | true =>
    obtain ⟨target, htarget⟩ := exists_target ht
    obtain ⟨d, hd⟩ := exists_chase_of_validate hv h htarget
    exact ⟨d.resolved, follow_of_chase htarget hd⟩

end Registry

namespace Codec

variable {r : Registry} {settings : Settings} {name : String} {e : GenerateError}

/-- The error of a run that fails. -/
def error? {α : Type} : Except GenerateError α → Option GenerateError
  | .error e => some e
  | .ok _ => none

theorem eq_error_of_error? {α : Type} {x : Except GenerateError α} (h : error? x = some e) : x = .error e := by
  cases x with
  | error e' => exact congrArg _ (Option.some.inj h)
  | ok a => cases h

theorem exists_origins {ns : Namespace} (hv : r.validate = .ok ()) (hns : ns ∈ r.namespaces) :
    ∃ os, origins r ns = .ok os := by
  apply exists_mapM_eq_ok
  intro t ht
  obtain ⟨e, he, rfl⟩ := List.mem_map.mp ht
  obtain ⟨x, hx⟩ := Registry.exists_follow_of_validate hv (Registry.holdsIn_of_type hns he)
  exact ⟨x.type.origin, by rw [hx]; rfl⟩

theorem isDraft_of_checkManifest {ns : Namespace} (hv : r.validate = .ok ()) (hns : ns ∈ r.namespaces)
    (h : checkManifest r ns = .error e) : e.isDraft = true := by
  unfold checkManifest at h
  split at h
  · cases h
  · rename_i root hroot
    obtain ⟨x, hx⟩ := Registry.exists_follow_of_validate hv (Registry.holdsIn_of_manifest hns hroot)
    rw [hx] at h
    simp only [bind, Except.bind] at h
    split at h
    · cases h
    · cases h
      rfl

theorem isDraft_of_ofEntries {entries : List Entry} (h : Table.ofEntries entries = .error e) :
    e.isDraft = true := by
  unfold Table.ofEntries at h
  split at h
  · rename_i hr
    cases h
    unfold Table.checkRequired at hr
    split at hr
    · cases hr
      rfl
    · cases hr
  · split at h
    · rename_i hr
      cases h
      unfold Table.checkVariants at hr
      split at hr
      · cases hr
        rfl
      · cases hr
    · cases h

/-- Whatever is wrong with a valid schema shows only when a namespace is compiled by `draft`. -/
theorem isDraft_of_draft (hv : r.validate = .ok ()) (h : draft r name = .error e) : e.isDraft = true := by
  unfold draft at h
  rw [hv] at h
  cases hns : r.getNamespace name with
  | error e' =>
    rw [hns] at h
    cases h
    unfold Registry.getNamespace at hns
    split at hns
    · cases hns
    · cases hns
      rfl
  | ok ns =>
    have hmem := Registry.mem_of_namespace? (getNamespace_eq_ok_iff.mp hns)
    obtain ⟨os, hos⟩ := exists_origins hv hmem
    cases hm : checkManifest r ns with
    | error e' =>
      simp only [hns, hos, hm, bind, Except.bind] at h
      cases h
      exact isDraft_of_checkManifest hv hmem hm
    | ok _ =>
      cases htable : Table.ofEntries ((definitions r ns).map (ofDefinition r (keys r ns))) with
      | error e' =>
        simp only [hns, hos, hm, htable, bind, Except.bind] at h
        cases h
        exact isDraft_of_ofEntries htable
      | ok table =>
        simp only [hns, hos, hm, htable, bind, Except.bind] at h
        cases h

end Codec

/-! ## An extension

A namespace with a manifest, whose actions lead to one another. -/

namespace Extension

def mode : Ty := (Ty.ofKind (.enumeration ["light", "dark"])).named "Mode"

/-- An icon is one path, or a list of paths. -/
def icon : Ty :=
  (Ty.ofKind (.choices [Ty.ofKind .string, Ty.ofKind (.array (Ty.ofKind .string))])).named "Icon"

def action : Ty :=
  ((Ty.object [⟨"title", false, Ty.ofKind .string⟩, ⟨"icon", true, Ty.ofKind (.reference "Icon")⟩,
    ⟨"next", true, Ty.ofKind (.reference "Action")⟩]).named "Action").withOrigin .jsonAndClient

/-- Another name for an action. -/
def command : Ty := (Ty.ofKind (.reference "Action")).named "Command"

def manifest : Ty :=
  Ty.object [⟨"name", false, Ty.ofKind .string⟩, ⟨"mode", true, Ty.ofKind (.reference "Mode")⟩,
    ⟨"action", true, Ty.ofKind (.reference "Command")⟩,
    ⟨"hosts", true, Ty.ofKind (.array (Ty.ofKind .string))⟩]

def app : Namespace :=
  (((((Namespace.empty "app").withType mode).withType icon).withType command).withType action).withManifest
    manifest

def registry : Registry where
  namespaces := [app]
  distinct := by decide

theorem nodup_registrationKeys : registry.registrationKeys.Nodup := by decide

theorem exists_draft : ∃ d, Codec.draft registry "app" = .ok d :=
  Codec.exists_of_isOk (by decide +kernel)

end Extension

end Interchange
