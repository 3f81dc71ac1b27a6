import Interchange.Proofs.Compilation

/-! # Types and plans as trees

A type and its plan may be infinite once their references are followed, so they are compared to
every depth (`Registry.unfold`, `Table.unfold`). References of a type are followed from the
namespace in which the type stands, names of a plan through the table; what is left are kinds,
properties, variants and members. Where no two definitions have a key in common, a type and its plan
are the same tree (`Of.unfold_ofType`).
-/

namespace Interchange

open Plan Schema

/-- A type or a plan written out to some depth. References are followed, and names of types are left
out. -/
inductive Tree
  /-- What lies beyond the depth. -/
  | cut
  /-- A reference that leads nowhere. -/
  | lost
  | boolean
  | integer
  | int64
  | double
  | string
  | binary
  | any
  | function (serializable : Bool)
  | enumeration (members : List String)
  | array (items : Tree)
  | object (properties : List (String × Bool × Tree)) (additional : Option Tree)
  | choices (variants : List Tree)

/-- One layer of a type that is no reference, with its parts as `f` has them. -/
def Schema.Kind.tree (f : Ty → Tree) : Kind Ty → Tree
  | .boolean => .boolean
  | .integer => .integer
  | .int64 => .int64
  | .double => .double
  | .string => .string
  | .binary => .binary
  | .any => .any
  | .function serializable => .function serializable
  | .enumeration members => .enumeration members
  | .array items => .array (f items)
  | .object properties additional =>
    .object (properties.values.map fun q => (q.name, q.optional, f q.type)) (additional.map f)
  | .choices variants => .choices (variants.map f)
  | .reference _ => .lost

/-- One layer of a plan, with its parts as `f` has them. -/
def Plan.ShapeOf.tree (f : Plan → Tree) : Shape → Tree
  | .boolean => .boolean
  | .integer => .integer
  | .int64 => .int64
  | .double => .double
  | .string => .string
  | .binary => .binary
  | .any => .any
  | .function serializable => .function serializable
  | .enumeration e => .enumeration e.members
  | .array items => .array (f items)
  | .object o => .object (o.properties.map fun q => (q.name, q.optional, f q.plan)) (o.additional.map f)
  | .choices c => .choices (c.variants.map fun w => f w.plan)

/-- A type that stands in a namespace as a `Tree` of the given depth. -/
def Registry.unfold (r : Registry) : Nat → String → Ty → Tree
  | 0, _, _ => .cut
  | n + 1, space, t =>
    match r.follow space t with
    | .error _ => .lost
    | .ok x => x.type.kind.tree (r.unfold n x.space)

/-- A plan as a `Tree` of the given depth. -/
def Table.unfold (t : Table) : Nat → Plan → Tree
  | 0, _ => .cut
  | n + 1, p => (t.shape p).tree (t.unfold n)

/-! ## One layer -/

theorem Table.unfold_congr {t : Table} {p q : Plan} (h : t.shape p = t.shape q) (n : Nat) :
    t.unfold n p = t.unfold n q := by
  cases n with
  | zero => rfl
  | succ n => rw [unfold, unfold, h]

namespace Registry

variable {r : Registry} {space target : String} {t : Ty} {n : Nat}

theorem unfold_of_isReference (h : t.kind.isReference = false) :
    r.unfold (n + 1) space t = t.kind.tree (r.unfold n space) := by
  rw [unfold, follow_of_isReference h]

/-- A reference unfolds as the type that `chase` leads to. -/
theorem unfold_of_reference (h : t.kind = .reference target) {d : Declared}
    (hd : r.chase [] space target = .ok d) : r.unfold n space t = r.unfold n d.space d.type := by
  cases n with
  | zero => rfl
  | succ n =>
    rw [unfold_of_isReference (isReference_of_chase hd), unfold, follow_of_reference h, hd]
    rfl

end Registry

namespace Plan

variable {r : Registry} {keys : List String} {space owner : String} {table : Table} {n : Nat}

theorem map_ofProperties {f : Plan → Tree} {g : Ty → Tree} {ps : List (String × Property)}
    (h : ∀ e ∈ ps, ∀ owner, f (ofType r keys space owner e.2.type) = g e.2.type) :
    ((ofProperties r keys space owner ps).map fun q => (q.name, q.optional, f q.plan)) =
      ps.map fun e => (e.2.name, e.2.optional, g e.2.type) := by
  induction ps with
  | nil => rfl
  | cons e ps ih =>
    rw [List.forall_mem_cons] at h
    simp only [ofProperties, List.map_cons, h.1, ih h.2]

theorem map_ofVariants {f : Plan → Tree} {g : Ty → Tree} {ts : List Ty}
    (h : ∀ t ∈ ts, f (ofType r keys space owner t) = g t) :
    ((ofVariants r keys space owner ts).map fun w => f w.plan) = ts.map g := by
  induction ts with
  | nil => rfl
  | cons t ts ih =>
    rw [List.forall_mem_cons] at h
    simp only [ofVariants, List.map_cons, h.1, ih h.2]

/-- A type that is no reference is compiled by `ofType` layer by layer. -/
theorem unfold_ofType_layer {t : Ty} (ht : t.kind.isReference = false)
    (ih : ∀ u, Ty.Part u t → ∀ owner, table.unfold n (ofType r keys space owner u) = r.unfold n space u) :
    table.unfold (n + 1) (ofType r keys space owner t) = r.unfold (n + 1) space t := by
  rw [Registry.unfold_of_isReference ht, Table.unfold]
  obtain ⟨name, kind, origin⟩ := t
  cases kind with
  | object ps a =>
    simp only [ofType, ofKind, Table.shape, ShapeOf.tree, Kind.tree, Dict.values, List.map_map]
    congr 1
    · exact map_ofProperties fun e he owner => ih e.2.type (.property he) owner
    · cases a with
      | none => rfl
      | some a => exact congrArg some (ih a .additional _)
  | array items =>
    simp only [ofType, ofKind, Table.shape, ShapeOf.tree, Kind.tree, ih items .item]
  | choices ts =>
    simp only [ofType, ofKind, Table.shape, ShapeOf.tree, Kind.tree]
    congr 1
    exact map_ofVariants fun t ht => ih t (.variant ht) owner
  | reference target => cases ht
  | boolean | integer | int64 | double | string | binary | any | function | enumeration =>
    simp only [ofType, ofKind, Table.shape, ShapeOf.tree, Kind.tree]

end Plan

/-! ## All layers -/

namespace Codec

variable {r : Registry} {ns : Namespace} {c : Codec} {space owner : String} {t : Ty}

/-- To every depth the plan of a type is the type itself. The induction is on the depth; a reference
uses none of it, so it is followed before the layer of what it leads to is compared
(`unfold_ofType_layer`). -/
theorem Of.unfold_ofType (hc : Of r ns c) (hv : r.validate = .ok ()) (hk : r.registrationKeys.Nodup)
    (hin : r.HoldsIn space t) (hcov : r.Covers (keys r ns) space t) (n : Nat) (owner : String) :
    c.table.unfold n (ofType r (keys r ns) space owner t) = r.unfold n space t := by
  induction n generalizing space t owner with
  | zero => rfl
  | succ n ih =>
    cases ht : t.kind.isReference with
    | false => exact unfold_ofType_layer ht fun u hu owner => ih (hin.part hu) (hcov.part hu) owner
    | true =>
      obtain ⟨target, htarget⟩ : ∃ target, t.kind = .reference target := by
        cases hkind : t.kind with
        | reference target => exact ⟨target, rfl⟩
        | _ =>
          rw [hkind] at ht
          cases ht
      obtain ⟨d, hd⟩ := Registry.exists_chase_of_validate hv hin htarget
      have hdest := Registry.destination?_eq_some_iff.mpr hd
      have hmem := hcov target (Ty.mem_targets_iff.mpr (.inl htarget)) d hdest
      obtain ⟨hdef, hplan⟩ := hc.plan_of_declaration hk (Registry.mem_declarations_of_chase hd) hmem
      have hshape : c.table.shape (.named ((keys r ns).idxOf d.qualified)) =
          c.table.shape (ofType r (keys r ns) d.space d.qualified d.type) := by
        rw [Table.shape, hplan]
      rw [ofType_of_reference htarget, ofReference_of_destination? hdest, Table.unfold_congr hshape,
        Registry.unfold_of_reference htarget hd]
      refine unfold_ofType_layer (Registry.isReference_of_chase hd) fun u hu owner => ?_
      exact ih ((holdsIn_of_definitions hc.mem hdef).part hu) ((covers_of_definitions hdef).part hu) owner

theorem shape_entryOf (table : Table) (keys : List String) (key : String) :
    table.shape (.named (entryOf table keys key)) = table.shape (.named (keys.idxOf key)) := by
  cases ht : table.target? (.named (keys.idxOf key)) with
  | none => rw [entryOf, ht, Option.getD_none]
  | some id => rw [entryOf, ht, Option.getD_some, Table.shape, Table.plan_of_target? ht, Table.shape]

/-- Parameters and their plan: the same names in the same order, with the same types to every depth.
-/
def SameParams (r : Registry) (space : String) (table : Table) (ps : List Property) (o : ObjectPlan) : Prop :=
  o.additional = none ∧ ∀ n, (o.properties.map fun q => (q.name, q.optional, table.unfold n q.plan)) =
    ps.map fun q => (q.name, q.optional, r.unfold n space q.type)

/-- A codec represents a namespace when it has the same types, manifest, functions and events, in
the same order, and all of them `unfold` to the same trees at every depth. -/
structure Represents (r : Registry) (ns : Namespace) (c : Codec) : Prop where
  types : List.Forall₂ (fun e x => x.1 = e.1 ∧ ∀ n, c.table.unfold n (.named x.2) = r.unfold n ns.name e.2)
    ns.types.entries c.types.entries
  manifest : Option.Rel (fun t id => ∀ n, c.table.unfold n (.named id) = r.unfold n ns.name t)
    ns.manifest c.manifest
  functions : List.Forall₂ (fun e x => x.1 = e.1 ∧ SameParams r ns.name c.table e.2.params x.2.params ∧
    Option.Rel (SameParams r ns.name c.table) e.2.results x.2.results)
    ns.functions.entries c.functions.entries
  events : List.Forall₂ (fun e x => x.1 = e.1 ∧ SameParams r ns.name c.table e.2.params x.2.params)
    ns.events.entries c.events.entries

theorem Of.sameParams (hc : Of r ns c) (hv : r.validate = .ok ()) (hk : r.registrationKeys.Nodup)
    {ps : List Property} (hps : ps ∈ ns.paramLists) (owner : String) :
    SameParams r ns.name c.table ps (ofParams r (keys r ns) ns.name owner ps) := by
  refine ⟨rfl, fun n => ?_⟩
  rw [ofParams, map_ofProperties (g := r.unfold n ns.name), List.map_map]
  · rfl
  · intro e he owner
    obtain ⟨q, hq, rfl⟩ := List.mem_map.mp he
    exact hc.unfold_ofType hv hk (Registry.holdsIn_of_param hc.mem hps hq) (covers_of_params hps hq) n owner

theorem Of.unfold_type (hc : Of r ns c) (hv : r.validate = .ok ()) (hk : r.registrationKeys.Nodup)
    {e : String × Ty} (he : e ∈ ns.types.entries) (n : Nat) :
    c.table.unfold n (.named (entryOf c.table (keys r ns) (qualify ns.name e.1))) =
      r.unfold n ns.name e.2 := by
  have hd : (⟨ns.name, e.1, e.2⟩ : Declared) ∈ r.declarations :=
    Registry.mem_declarations_iff.mpr ⟨ns, hc.mem, rfl, he⟩
  obtain ⟨hdef, hplan⟩ := hc.plan_of_declaration hk hd (key_mem_of_type he)
  have hshape : c.table.shape (.named (entryOf c.table (keys r ns) (qualify ns.name e.1))) =
      c.table.shape (ofType r (keys r ns) ns.name (qualify ns.name e.1) e.2) := by
    rw [shape_entryOf, Table.shape]
    exact congrArg c.table.shape hplan
  rw [Table.unfold_congr hshape]
  exact hc.unfold_ofType hv hk (Registry.holdsIn_of_type hc.mem he) (covers_of_definitions hdef) n _

theorem Of.unfold_manifest (hc : Of r ns c) (hv : r.validate = .ok ()) (hk : r.registrationKeys.Nodup)
    (ht : ns.manifest = some t) (n : Nat) :
    c.table.unfold n (.named ((keys r ns).idxOf (manifestKey ns.name))) = r.unfold n ns.name t := by
  obtain ⟨hdef, hplan⟩ := hc.plan_of_manifest hk ht
  have hshape : c.table.shape (.named ((keys r ns).idxOf (manifestKey ns.name))) =
      c.table.shape (ofType r (keys r ns) ns.name (qualify ns.name (manifestName t)) t) := by
    rw [Table.shape, hplan]
  rw [Table.unfold_congr hshape]
  exact hc.unfold_ofType hv hk (Registry.holdsIn_of_manifest hc.mem ht) (covers_of_definitions hdef) n _

theorem Of.types_entries (hc : Of r ns c) : c.types.entries =
    ns.types.entries.map fun e => (e.1, entryOf c.table (keys r ns) (qualify ns.name e.1)) := by
  rw [hc.types]
  simp only [typeIds, Dict.keys, List.map_map, List.zip_map']
  rfl

/-- Compiling preserves the schema: a codec `Represents` its namespace, if the keys of all
definitions are distinct. -/
theorem represents_of_generate {settings : Settings} {name : String}
    (h : generate r settings name = .ok c) (hk : r.registrationKeys.Nodup) :
    ∃ ns, r.namespace? name = some ns ∧ Represents r ns c := by
  obtain ⟨ns, hv, hns, hc⟩ := exists_of_generate h
  refine ⟨ns, hns, ?_, ?_, ?_, ?_⟩
  · rw [hc.types_entries, List.forall₂_map_right_iff, List.forall₂_same]
    exact fun e he => ⟨rfl, hc.unfold_type hv hk he⟩
  · rw [hc.manifest]
    cases ht : ns.manifest with
    | none => exact .none
    | some t => exact .some (hc.unfold_manifest hv hk ht)
  · rw [hc.functions, List.forall₂_map_right_iff, List.forall₂_same]
    intro e he
    have hf : e.2 ∈ ns.functions.values := List.mem_map.mpr ⟨e, he, rfl⟩
    refine ⟨rfl, hc.sameParams hv hk ?_ _, ?_⟩
    · exact List.mem_append_left _ (List.mem_flatMap.mpr ⟨e.2, hf, List.mem_cons_self⟩)
    · simp only [functionPlan]
      cases hres : e.2.results with
      | none => exact .none
      | some ps =>
        refine .some (hc.sameParams hv hk ?_ _)
        exact List.mem_append_left _ (List.mem_flatMap.mpr ⟨e.2, hf, by simp [hres]⟩)
  · rw [hc.events, List.forall₂_map_right_iff, List.forall₂_same]
    intro e he
    refine ⟨rfl, hc.sameParams hv hk ?_ _⟩
    exact List.mem_append_right _ (List.mem_map.mpr ⟨e.2, List.mem_map.mpr ⟨e, he, rfl⟩, rfl⟩)

end Codec

/-! ## A forest

Types that refer to one another in circles, across two namespaces and through an alias. -/

namespace Forest

/-- A mark is a name, or a list of marks. -/
def mark : Ty :=
  (Ty.ofKind (.choices [Ty.ofKind .string, Ty.ofKind (.array (Ty.ofKind (.reference "Mark")))])).named "Mark"

def node : Ty :=
  (Ty.object [⟨"mark", false, Ty.ofKind (.reference "marks.Mark")⟩,
    ⟨"children", false, Ty.ofKind (.array (Ty.ofKind (.reference "Node")))⟩,
    ⟨"next", true, Ty.ofKind (.reference "Twig")⟩]).named "Node"

/-- Another name for a node. -/
def twig : Ty := (Ty.ofKind (.reference "Node")).named "Twig"

def plant : FunctionDecl where
  name := "plant"
  params := [⟨"node", false, Ty.ofKind (.reference "Twig")⟩]
  results := some [⟨"mark", true, Ty.ofKind (.reference "marks.Mark")⟩]

def grown : EventDecl where
  name := "grown"
  params := [⟨"nodes", false, Ty.ofKind (.array (Ty.ofKind (.reference "Node")))⟩]

def forest : Namespace :=
  ((((Namespace.empty "forest").withType twig).withType node).withFunction plant).withEvent grown

def marks : Namespace := (Namespace.empty "marks").withType mark

def registry : Registry where
  namespaces := [forest, marks]
  distinct := by decide

theorem nodup_registrationKeys : registry.registrationKeys.Nodup := by decide

theorem exists_codec : ∃ c, Codec.generate registry {} "forest" = .ok c :=
  Codec.exists_of_isOk (by decide +kernel)

end Forest

theorem Codec.represents_of_generate_forest :
    Forest.registry.registrationKeys.Nodup ∧ ∃ c, generate Forest.registry {} "forest" = .ok c ∧
      ∃ ns, Forest.registry.namespace? "forest" = some ns ∧ Represents Forest.registry ns c := by
  obtain ⟨c, hc⟩ := Forest.exists_codec
  exact ⟨Forest.nodup_registrationKeys, c, hc, represents_of_generate hc Forest.nodup_registrationKeys⟩

end Interchange
