import Interchange.Codec.Use
import Interchange.Proofs.Generation
import Interchange.Proofs.Unfolding
import Interchange.Proofs.Walk

/-! # What a type offers, told from the schema

A manifest holds its root and every object that is the type of a property of an object it holds
(`InManifest`). What a walk through the table meets are the plans of just these properties
(`Compiled.exists_reachesProperty`, `Compiled.exists_inManifest`). So a declared type offers what
its origin asks for, and what the manifest needs where the type is that of a property in it
(`Offers`); and a manifest fails to be generated because of a property in it that cannot be read
(`HasUnreadable`), and for no other property. Without a manifest a declared type offers what its
origin asks for and no more (`offers_of_manifest_eq_none`).
-/

namespace Interchange

open Plan Schema

namespace Registry

variable {r : Registry} {ns : Namespace} {space target : String} {q : Property} {x : Resolved}

/-- A property of an object in the manifest of a namespace, and the namespace in which its type is
looked up. Arrays, variants and additional properties are not entered. -/
inductive InManifest (r : Registry) (ns : Namespace) : String → Property → Prop
  | root {t : Ty} {x : Resolved} {ps : Dict Property} {a : Option Ty} {q : Property}
      (ht : ns.manifest = some t) (hx : r.follow ns.name t = .ok x) (hk : x.type.kind = .object ps a)
      (hq : q ∈ ps.values) : InManifest r ns x.space q
  | inside {space : String} {q q' : Property} {x : Resolved} {ps : Dict Property} {a : Option Ty}
      (h : InManifest r ns space q) (hx : r.follow space q.type = .ok x)
      (hk : x.type.kind = .object ps a) (hq : q' ∈ ps.values) : InManifest r ns x.space q'

/-- The declared type is that of a property `InManifest`. -/
def HeldBy (r : Registry) (ns : Namespace) (d : Declared) : Prop :=
  ∃ space q target, r.InManifest ns space q ∧ q.type.kind = .reference target ∧
    r.chase [] space target = .ok d

/-- A property `InManifest` is of a kind that cannot be read from one. -/
def HasUnreadable (r : Registry) (ns : Namespace) : Prop :=
  ∃ space q x, r.InManifest ns space q ∧ r.follow space q.type = .ok x ∧
    x.type.kind.tag.isUnreadable = true

/-- The type that a declared type stands for: itself, or the one that it leads to. -/
def concrete (r : Registry) (d : Declared) : Except GenerateError Declared :=
  match d.type.kind with
  | .reference target => r.chase [] d.space target
  | _ => .ok d

end Registry

namespace Registry

variable {r : Registry} {ns : Namespace} {space : String} {t : Ty} {d d' : Declared}

theorem concrete_of_isReference (h : d.type.kind.isReference = false) : r.concrete d = .ok d := by
  unfold concrete
  split
  · rename_i hk
    rw [hk] at h
    cases h
  · rfl

theorem concrete_of_reference {target : String} (h : d.type.kind = .reference target) :
    r.concrete d = r.chase [] d.space target := by
  simp only [concrete, h]

/-- A declared type is followed by `follow` to the type of its `concrete` one. -/
theorem exists_follow_of_concrete (h : r.concrete d = .ok d') :
    ∃ x, r.follow d.space d.type = .ok x ∧ x.type = d'.type := by
  cases href : d.type.kind.isReference with
  | false =>
    rw [concrete_of_isReference href] at h
    cases h
    exact ⟨_, follow_of_isReference href, rfl⟩
  | true =>
    obtain ⟨target, hk⟩ := exists_target href
    rw [concrete_of_reference hk] at h
    exact ⟨d'.resolved, follow_of_chase hk h, rfl⟩

theorem exists_concrete_of_validate (hv : r.validate = .ok ()) (h : d ∈ r.declarations) :
    ∃ d', r.concrete d = .ok d' := by
  cases href : d.type.kind.isReference with
  | false => exact ⟨d, concrete_of_isReference href⟩
  | true =>
    obtain ⟨target, hk⟩ := exists_target href
    rw [concrete_of_reference hk]
    exact exists_chase_of_validate hv (holdsIn_of_declaration h) hk

theorem HoldsIn.follow (h : r.HoldsIn space t) {x : Resolved} (hx : r.follow space t = .ok x) :
    r.HoldsIn x.space x.type := by
  cases href : t.kind.isReference with
  | false =>
    rw [follow_of_isReference href] at hx
    cases hx
    exact h
  | true =>
    obtain ⟨target, hk⟩ := exists_target href
    rw [follow_of_reference hk] at hx
    cases hd : r.chase [] space target with
    | error e =>
      rw [hd] at hx
      cases hx
    | ok d =>
      rw [hd] at hx
      cases hx
      exact holdsIn_of_declaration (mem_declarations_of_chase hd)

theorem HoldsIn.property (h : r.HoldsIn space t) {ps : Dict Property} {a : Option Ty}
    (hk : t.kind = .object ps a) {q : Property} (hq : q ∈ ps.values) : r.HoldsIn space q.type := by
  obtain ⟨name, kind, origin⟩ := t
  cases hk
  obtain ⟨e, he, rfl⟩ := List.mem_map.mp hq
  exact h.part (.property he)

theorem InManifest.holdsIn (hns : ns ∈ r.namespaces) {q : Property} (h : r.InManifest ns space q) :
    r.HoldsIn space q.type := by
  induction h with
  | root ht hx hk hq => exact ((holdsIn_of_manifest hns ht).follow hx).property hk hq
  | inside _ hx hk hq ih => exact (ih.follow hx).property hk hq

theorem InManifest.exists_manifest {q : Property} (h : r.InManifest ns space q) :
    ∃ t, ns.manifest = some t := by
  induction h with
  | root ht => exact ⟨_, ht⟩
  | inside _ _ _ _ ih => exact ih

/-- A registry without types that cannot be read has none in its manifests. -/
theorem not_hasUnreadable (hns : ns ∈ r.namespaces)
    (h : ∀ t ∈ r.types, t.kind.tag.isUnreadable = false) : ¬ r.HasUnreadable ns := by
  intro ⟨space, q, x, hin, hx, hbad⟩
  rw [h x.type (mem_types_iff.mpr ((hin.holdsIn hns).follow hx).holds)] at hbad
  cases hbad

end Registry

/-! ## Types and the plans they are compiled to -/

namespace Plan

variable {r : Registry} {keys : List String} {space owner : String} {t : Ty} {table : Table}

/-- A type that is no reference is compiled by `ofType` to a plan of its own kind. -/
theorem tag_shape_ofType (h : t.kind.isReference = false) :
    (table.shape (ofType r keys space owner t)).tag = t.kind.tag := by
  obtain ⟨name, kind, origin⟩ := t
  cases kind with
  | reference target => cases h
  | object ps a =>
    rw [ofType, ofKind, Table.shape]
    rfl
  | boolean | integer | int64 | double | string | any | binary | enumeration | function | array | choices =>
    rw [ofType, ofKind, Table.shape]
    rfl

/-- An object type is compiled property by property. -/
theorem shape_ofType_object {ps : Dict Property} {a : Option Ty} (h : t.kind = .object ps a) :
    ∃ o, table.shape (ofType r keys space owner t) = .object o ∧
      o.properties = ofProperties r keys space o.name ps.entries := by
  obtain ⟨name, kind, origin⟩ := t
  cases h
  refine ⟨_, by rw [ofType, ofKind, Table.shape], rfl⟩

theorem target?_ofType_of_isReference (h : t.kind.isReference = false) :
    table.target? (ofType r keys space owner t) = none := by
  obtain ⟨name, kind, origin⟩ := t
  cases kind with
  | reference target => cases h
  | object | boolean | integer | int64 | double | string | any | binary | enumeration | function | array
  | choices => rw [ofType, ofKind, Table.target?]

theorem exists_mem_ofProperties {ps : List (String × Property)} {e : String × Property} (he : e ∈ ps) :
    ∃ q ∈ ofProperties r keys space owner ps, ∃ owner', q.plan = ofType r keys space owner' e.2.type := by
  induction ps with
  | nil => cases he
  | cons e' ps ih =>
    rw [ofProperties]
    rcases List.mem_cons.mp he with rfl | he
    · exact ⟨_, List.mem_cons_self, _, rfl⟩
    · obtain ⟨q, hq, h⟩ := ih he
      exact ⟨q, List.mem_cons_of_mem _ hq, h⟩

end Plan

namespace Codec

variable {r : Registry} {ns : Namespace} {c : Codec} {space owner : String} {t : Ty} {d : Declared}

/-- A type in the namespace of the given name (`HoldsIn`), of which everything that it refers to has
an entry (`Covers`). -/
structure Placed (r : Registry) (ns : Namespace) (space : String) (t : Ty) : Prop where
  holds : r.HoldsIn space t
  covers : r.Covers (keys r ns) space t

theorem Placed.property {ps : Dict Property} {a : Option Ty} (h : Placed r ns space t)
    (hk : t.kind = .object ps a) {q : Property} (hq : q ∈ ps.values) : Placed r ns space q.type := by
  obtain ⟨name, kind, origin⟩ := t
  cases hk
  obtain ⟨e, he, rfl⟩ := List.mem_map.mp hq
  exact ⟨h.holds.part (.property he), h.covers.part (.property he)⟩

theorem placed_of_definitions (hns : ns ∈ r.namespaces) {d : Definition} (hd : d ∈ definitions r ns) :
    Placed r ns d.space d.type :=
  ⟨holdsIn_of_definitions hns hd, covers_of_definitions hd⟩

/-- What is known of a codec that has been compiled from a valid registry with distinct
`registrationKeys`. -/
structure Compiled (r : Registry) (ns : Namespace) (c : Codec) : Prop extends Of r ns c where
  valid : r.validate = .ok ()
  nodup : r.registrationKeys.Nodup

/-- A reference is compiled to the entry of the type that it leads to, which is written out there.
-/
theorem Compiled.reference (hc : Compiled r ns c) (hp : Placed r ns space t) {target : String}
    (ht : t.kind = .reference target) (hd : r.chase [] space target = .ok d) (owner : String) :
    ofType r (keys r ns) space owner t = .named ((keys r ns).idxOf d.qualified) ∧
      d.qualified ∈ keys r ns ∧ Placed r ns d.space d.type ∧
      c.table.plan ((keys r ns).idxOf d.qualified) = ofType r (keys r ns) d.space d.qualified d.type := by
  have hdest := Registry.destination?_eq_some_iff.mpr hd
  have hmem := hp.covers target (Ty.mem_targets_iff.mpr (.inl ht)) d hdest
  obtain ⟨hdef, hplan⟩ := hc.plan_of_declaration hc.nodup (Registry.mem_declarations_of_chase hd) hmem
  refine ⟨?_, hmem, placed_of_definitions hc.mem hdef, hplan⟩
  rw [ofType_of_reference ht, ofReference_of_destination? hdest]

/-- The shape of a plan is that of the type which its own type leads to by `follow`. -/
theorem Compiled.exists_follow (hc : Compiled r ns c) (hp : Placed r ns space t) (owner : String) :
    ∃ x, r.follow space t = .ok x ∧ x.type.kind.isReference = false ∧ Placed r ns x.space x.type ∧
      ∃ owner', c.table.shape (ofType r (keys r ns) space owner t) =
        c.table.shape (ofType r (keys r ns) x.space owner' x.type) := by
  cases ht : t.kind.isReference with
  | false => exact ⟨_, Registry.follow_of_isReference ht, ht, hp, owner, rfl⟩
  | true =>
    obtain ⟨target, htarget⟩ := Registry.exists_target ht
    obtain ⟨d, hd⟩ := Registry.exists_chase_of_validate hc.valid hp.holds htarget
    obtain ⟨hnamed, -, hplaced, hplan⟩ := hc.reference hp htarget hd owner
    refine ⟨d.resolved, Registry.follow_of_chase htarget hd, Registry.isReference_of_chase hd, hplaced,
      d.qualified, ?_⟩
    rw [hnamed, Table.shape, hplan]
    rfl

/-- A plan has the kind of the type that its own type leads to by `follow`. -/
theorem Compiled.tag_shape (hc : Compiled r ns c) (hp : Placed r ns space t) {x : Resolved}
    (hx : r.follow space t = .ok x) (owner : String) :
    (c.table.shape (ofType r (keys r ns) space owner t)).tag = x.type.kind.tag := by
  obtain ⟨x', hx', href, -, owner', hshape⟩ := hc.exists_follow hp owner
  rw [hx] at hx'
  cases hx'
  rw [hshape, tag_shape_ofType href]

/-- An object is compiled from an object. -/
theorem Compiled.exists_object (hc : Compiled r ns c) (hp : Placed r ns space t) {o : ObjectPlan}
    (h : c.table.shape (ofType r (keys r ns) space owner t) = .object o) :
    ∃ x ps a, r.follow space t = .ok x ∧ x.type.kind = .object ps a ∧ Placed r ns x.space x.type := by
  obtain ⟨x, hx, -, hplaced, -⟩ := hc.exists_follow hp owner
  have htag := hc.tag_shape hp hx owner
  rw [h] at htag
  obtain ⟨ps, a, hk⟩ : ∃ ps a, x.type.kind = .object ps a := by
    cases hk : x.type.kind with
    | object ps a => exact ⟨ps, a, rfl⟩
    | _ =>
      rw [hk] at htag
      cases htag
  exact ⟨x, ps, a, hx, hk, hplaced⟩

/-- The properties of an object are those of the type that its own type leads to. -/
theorem Compiled.object_properties (hc : Compiled r ns c) (hp : Placed r ns space t) {x : Resolved}
    (hx : r.follow space t = .ok x) {ps : Dict Property} {a : Option Ty} (hk : x.type.kind = .object ps a)
    (owner : String) : ∃ o, c.table.shape (ofType r (keys r ns) space owner t) = .object o ∧
      o.properties = ofProperties r (keys r ns) x.space o.name ps.entries := by
  obtain ⟨x', hx', -, -, owner', hshape⟩ := hc.exists_follow hp owner
  rw [hx] at hx'
  cases hx'
  rw [hshape]
  exact shape_ofType_object hk

theorem Compiled.placed_follow (hc : Compiled r ns c) (hp : Placed r ns space t) {x : Resolved}
    (hx : r.follow space t = .ok x) : Placed r ns x.space x.type := by
  obtain ⟨x', hx', -, hplaced, -⟩ := hc.exists_follow hp ""
  rw [hx] at hx'
  cases hx'
  exact hplaced

theorem Compiled.target?_reference (hc : Compiled r ns c) (hp : Placed r ns space t) {target : String}
    (ht : t.kind = .reference target) (hd : r.chase [] space target = .ok d) :
    c.table.target? (ofType r (keys r ns) space owner t) = some ((keys r ns).idxOf d.qualified) := by
  obtain ⟨hnamed, -, -, hplan⟩ := hc.reference hp ht hd owner
  rw [hnamed, Table.target?, hplan, target?_ofType_of_isReference (Registry.isReference_of_chase hd)]
  rfl

/-! ## What is in a manifest -/

/-- The number of the manifest's root. -/
def rootId (r : Registry) (ns : Namespace) : Nat := (keys r ns).idxOf (manifestKey ns.name)

theorem Compiled.shape_root (hc : Compiled r ns c) (ht : ns.manifest = some t) :
    Placed r ns ns.name t ∧ c.table.shape (.named (rootId r ns)) =
      c.table.shape (ofType r (keys r ns) ns.name (qualify ns.name (manifestName t)) t) := by
  obtain ⟨hdef, hplan⟩ := hc.plan_of_manifest hc.nodup ht
  exact ⟨placed_of_definitions hc.mem hdef, by rw [rootId, Table.shape, hplan]⟩

/-- The properties of the object are compiled from properties `InManifest`. -/
def FromManifest (r : Registry) (ns : Namespace) (o : ObjectPlan) : Prop :=
  ∃ space, ∃ ps : Dict Property, (∀ q ∈ ps.values, Placed r ns space q.type ∧ r.InManifest ns space q) ∧
    o.properties = ofProperties r (keys r ns) space o.name ps.entries

theorem FromManifest.exists_property {o : ObjectPlan} (h : FromManifest r ns o) {q : PropertyPlan}
    (hq : q ∈ o.properties) : ∃ space q' owner, Placed r ns space q'.type ∧ r.InManifest ns space q' ∧
      q.plan = ofType r (keys r ns) space owner q'.type := by
  obtain ⟨space, ps, hps, hprops⟩ := h
  rw [hprops] at hq
  obtain ⟨e, he, owner, hplan⟩ := exists_of_mem_ofProperties hq
  obtain ⟨hplaced, hin⟩ := hps e.2 (List.mem_map.mpr ⟨e, he, rfl⟩)
  exact ⟨space, e.2, owner, hplaced, hin, hplan⟩

theorem Compiled.fromManifest_of_object (hc : Compiled r ns c) (hp : Placed r ns space t) {o : ObjectPlan}
    (h : c.table.shape (ofType r (keys r ns) space owner t) = .object o)
    (hin : ∀ x ps a q, r.follow space t = .ok x → x.type.kind = .object ps a → q ∈ ps.values →
      r.InManifest ns x.space q) : FromManifest r ns o := by
  obtain ⟨x, ps, a, hx, hk, hplaced⟩ := hc.exists_object hp h
  obtain ⟨o', ho', hprops⟩ := hc.object_properties hp hx hk owner
  rw [h] at ho'
  cases ho'
  exact ⟨x.space, ps, fun q hq => ⟨hplaced.property hk hq, hin x ps a q hx hk hq⟩, hprops⟩

/-- Every object that the root `Reaches` comes from the manifest: the root does, and an object that
is held comes from the type of a property in the manifest. -/
theorem Compiled.fromManifest (hc : Compiled r ns c) (ht : ns.manifest = some t) {o o' : ObjectPlan}
    (hs : c.table.shape (.named (rootId r ns)) = .object o) (h : c.table.Reaches o o') :
    FromManifest r ns o' := by
  induction h with
  | refl =>
    obtain ⟨hp, hshape⟩ := hc.shape_root ht
    rw [hshape] at hs
    exact hc.fromManifest_of_object hp hs fun x ps a q hx hk hq => .root ht hx hk hq
  | tail _ hheld ih =>
    obtain ⟨q, hq, hs'⟩ := hheld
    obtain ⟨space, q', owner, hp, hin, hplan⟩ := ih.exists_property hq
    rw [hplan] at hs'
    exact hc.fromManifest_of_object hp hs' fun x ps a q hx hk hq => .inside hin hx hk hq

theorem Compiled.exists_inManifest (hc : Compiled r ns c) (ht : ns.manifest = some t) {o : ObjectPlan}
    (hs : c.table.shape (.named (rootId r ns)) = .object o) {q : PropertyPlan}
    (h : c.table.ReachesProperty o q) : ∃ space q' owner, Placed r ns space q'.type ∧
      r.InManifest ns space q' ∧ q.plan = ofType r (keys r ns) space owner q'.type := by
  obtain ⟨o', hreach, hq⟩ := h
  exact (hc.fromManifest ht hs hreach).exists_property hq

/-- Conversely the plan of every property in the manifest is reached from the root. -/
theorem Compiled.exists_reachesProperty (hc : Compiled r ns c) {o : ObjectPlan}
    (hs : c.table.shape (.named (rootId r ns)) = .object o) {q : Property} (h : r.InManifest ns space q) :
    Placed r ns space q.type ∧ ∃ q' owner, c.table.ReachesProperty o q' ∧
      q'.plan = ofType r (keys r ns) space owner q.type := by
  induction h with
  | @root t x ps a q ht hx hk hq =>
    obtain ⟨hp, hshape⟩ := hc.shape_root ht
    refine ⟨(hc.placed_follow hp hx).property hk hq, ?_⟩
    obtain ⟨o', ho', hprops⟩ := hc.object_properties hp hx hk _
    rw [hshape, ho'] at hs
    cases hs
    obtain ⟨e, he, rfl⟩ := List.mem_map.mp hq
    obtain ⟨q', hq', owner, hplan⟩ := exists_mem_ofProperties he
    exact ⟨q', owner, ⟨o, .refl, hprops ▸ hq'⟩, hplan⟩
  | @inside space q q' x ps a _ hx hk hq ih =>
    obtain ⟨hp, q₀, owner, ⟨o₁, hreach, hq₀⟩, hplan⟩ := ih
    refine ⟨(hc.placed_follow hp hx).property hk hq, ?_⟩
    obtain ⟨o₂, ho₂, hprops⟩ := hc.object_properties hp hx hk owner
    rw [← hplan] at ho₂
    obtain ⟨e, he, rfl⟩ := List.mem_map.mp hq
    obtain ⟨q₁, hq₁, owner', hplan'⟩ := exists_mem_ofProperties he
    exact ⟨q₁, owner', ⟨o₂, hreach.tail ⟨q₀, hq₀, ho₂⟩, hprops ▸ hq₁⟩, hplan'⟩

/-- What the walk marks: the types `HeldBy` the manifest. -/
theorem Compiled.mem_marks_iff (hc : Compiled r ns c) (ht : ns.manifest = some t) {o : ObjectPlan}
    (hs : c.table.shape (.named (rootId r ns)) = .object o) {m : Nat × Operations} :
    m ∈ (c.table.walked [rootId r ns] o.owned).flatMap c.table.marksOf ↔
      ∃ d, r.HeldBy ns d ∧ (keys r ns).idxOf d.qualified = m.1 ∧ d.type.kind.tag.needs? = some m.2 := by
  rw [Table.mem_flatMap_marksOf_iff hs]
  constructor
  · intro ⟨q, hq, htarget, hneeds⟩
    obtain ⟨space, q', owner, hp, hin, hplan⟩ := hc.exists_inManifest ht hs hq
    rw [hplan] at htarget hneeds
    cases href : q'.type.kind.isReference with
    | false =>
      rw [target?_ofType_of_isReference href] at htarget
      cases htarget
    | true =>
      obtain ⟨target, hk⟩ := Registry.exists_target href
      obtain ⟨d, hd⟩ := Registry.exists_chase_of_validate hc.valid hp.holds hk
      rw [hc.target?_reference hp hk hd] at htarget
      rw [hc.tag_shape hp (Registry.follow_of_chase hk hd)] at hneeds
      exact ⟨d, ⟨space, q', target, hin, hk, hd⟩, Option.some.inj htarget, hneeds⟩
  · intro ⟨d, ⟨space, q', target, hin, hk, hd⟩, hid, hneeds⟩
    obtain ⟨hp, q, owner, hq, hplan⟩ := hc.exists_reachesProperty hs hin
    refine ⟨q, hq, ?_, ?_⟩
    · rw [hplan, hc.target?_reference hp hk hd, hid]
    · rw [hplan, hc.tag_shape hp (Registry.follow_of_chase hk hd)]
      exact hneeds

/-- The walk meets a property that cannot be read if and only if the manifest `HasUnreadable` ones.
-/
theorem Compiled.exists_unreadable_iff (hc : Compiled r ns c) (ht : ns.manifest = some t) {o : ObjectPlan}
    (hs : c.table.shape (.named (rootId r ns)) = .object o) :
    (∃ q, c.table.ReachesProperty o q ∧ (c.table.shape q.plan).tag.isUnreadable = true) ↔
      r.HasUnreadable ns := by
  constructor
  · intro ⟨q, hq, hbad⟩
    obtain ⟨space, q', owner, hp, hin, hplan⟩ := hc.exists_inManifest ht hs hq
    obtain ⟨x, hx, -⟩ := hc.exists_follow hp owner
    rw [hplan, hc.tag_shape hp hx] at hbad
    exact ⟨space, q', x, hin, hx, hbad⟩
  · intro ⟨space, q', x, hin, hx, hbad⟩
    obtain ⟨hp, q, owner, hq, hplan⟩ := hc.exists_reachesProperty hs hin
    exact ⟨q, hq, by rwa [hplan, hc.tag_shape hp hx]⟩

/-! ## Marks -/

theorem compiled_of_draft {name : String} {x : Draft} (h : draft r name = .ok x)
    (hk : r.registrationKeys.Nodup) {settings : Settings} {marks : Table.Marks}
    (hm : x.ns.manifest = none → marks = []) : Compiled r x.ns (x.codec r settings marks) where
  toOf := of_draft h hm
  valid := (draft_eq_ok_iff.mp h).1
  nodup := hk

/-- The root of a manifest that `checkManifest` has checked is an object. -/
theorem Compiled.exists_root (hc : Compiled r ns c) (hm : checkManifest r ns = .ok ())
    (ht : ns.manifest = some t) : ∃ o, c.table.shape (.named (rootId r ns)) = .object o := by
  obtain ⟨hp, hshape⟩ := hc.shape_root ht
  rw [checkManifest, ht] at hm
  obtain ⟨x, hx, hm⟩ := bind_eq_ok_iff.mp hm
  obtain ⟨ps, a, hk⟩ : ∃ ps a, x.type.kind = .object ps a := by
    cases hk : x.type.kind with
    | object ps a => exact ⟨ps, a, rfl⟩
    | _ =>
      rw [hk] at hm
      cases hm
  obtain ⟨o, ho, -⟩ := hc.object_properties hp hx hk (qualify ns.name (manifestName t))
  exact ⟨o, by rw [hshape, ho]⟩

/-- The marks of a manifest: that of its root, and those of the types `HeldBy` it. -/
def MarksOf (r : Registry) (ns : Namespace) (marks : Table.Marks) : Prop :=
  ∀ m, m ∈ marks ↔ (ns.manifest.isSome = true ∧ m = (rootId r ns, { parse := true })) ∨
    ∃ d, r.HeldBy ns d ∧ (keys r ns).idxOf d.qualified = m.1 ∧ d.type.kind.tag.needs? = some m.2

theorem not_inManifest (hm : ns.manifest = none) (space : String) (q : Property) :
    ¬ r.InManifest ns space q := by
  intro hin
  obtain ⟨t, ht⟩ := hin.exists_manifest
  rw [hm] at ht
  cases ht

/-- Without a manifest there are no marks. -/
theorem marksOf_nil (hm : ns.manifest = none) : MarksOf r ns [] := by
  intro m
  rw [hm]
  refine iff_of_false List.not_mem_nil fun hmark => ?_
  rcases hmark with ⟨hmark, -⟩ | ⟨d, ⟨space, q, _, hin, _⟩, -⟩
  · cases hmark
  · exact not_inManifest hm space q hin

/-- A walk through the manifest succeeds, and marks what the manifest holds (`MarksOf`), or the
manifest `HasUnreadable` properties, and one such property is reported. -/
theorem marks_cases {name : String} {x : Draft} (h : draft r name = .ok x) (hk : r.registrationKeys.Nodup) :
    (¬ r.HasUnreadable x.ns ∧ ∃ marks, x.marks r = .ok marks ∧ MarksOf r x.ns marks) ∨
      (r.HasUnreadable x.ns ∧ ∃ owner key kind,
        x.marks r = .error (.unsupportedManifestProperty owner key kind)) := by
  have hc : Compiled r x.ns (x.codec r {} []) := compiled_of_draft h hk fun _ => rfl
  cases ht : x.ns.manifest with
  | none =>
    refine .inl ⟨fun hbad => ?_, [], ?_, marksOf_nil ht⟩
    · obtain ⟨space, q, -, hin, -⟩ := hbad
      exact not_inManifest ht space q hin
    · rw [Draft.marks, ht]
  | some t =>
    obtain ⟨o, hs⟩ := hc.exists_root (draft_eq_ok_iff.mp h).2.2.2.1 ht
    have hmarks : x.marks r = x.table.manifestMarks (rootId r x.ns) := by
      rw [Draft.marks, ht]
      rfl
    rw [hmarks]
    by_cases hbad : r.HasUnreadable x.ns
    · obtain ⟨o', q, -, -, -, hrun⟩ :=
        Table.manifestMarks_of_unreadable hs ((hc.exists_unreadable_iff ht hs).mpr hbad)
      exact .inr ⟨hbad, _, _, _, hrun⟩
    · refine .inl ⟨hbad, _, Table.manifestMarks_of_readable hs fun q hq => ?_, fun m => ?_⟩
      · apply Bool.eq_false_iff.mpr
        intro hq'
        exact hbad ((hc.exists_unreadable_iff ht hs).mp ⟨q, hq, hq'⟩)
      · rw [List.mem_cons, ht, Option.isSome_some, eq_self_iff_true, true_and]
        exact or_congr_right (hc.mem_marks_iff ht hs)

end Codec

/-! ## Operations -/

namespace Operations

theorem ext_has {a b : Operations} (h : ∀ op, a.has op = true ↔ b.has op = true) : a = b := by
  obtain ⟨a₁, a₂, a₃, a₄, a₅⟩ := a
  obtain ⟨b₁, b₂, b₃, b₄, b₅⟩ := b
  have h₁ := Bool.eq_iff_iff.mpr (h .clone)
  have h₂ := Bool.eq_iff_iff.mpr (h .populate)
  have h₃ := Bool.eq_iff_iff.mpr (h .fromValue)
  have h₄ := Bool.eq_iff_iff.mpr (h .toValue)
  have h₅ := Bool.eq_iff_iff.mpr (h .parse)
  simp only [has] at h₁ h₂ h₃ h₄ h₅
  subst h₁ h₂ h₃ h₄ h₅
  rfl

theorem has_union {a b : Operations} {op : Operation} :
    (a.union b).has op = true ↔ a.has op = true ∨ b.has op = true := by
  cases op <;> exact Bool.or_eq_true_iff

theorem not_has_empty (op : Operation) : ({} : Operations).has op = false := by
  cases op <;> rfl

theorem has_foldl_union {s : Operations} {ss : List Operations} {op : Operation} :
    (ss.foldl union s).has op = true ↔ s.has op = true ∨ ∃ s' ∈ ss, s'.has op = true := by
  induction ss generalizing s with
  | nil => simp
  | cons s' ss ih =>
    rw [List.foldl_cons, ih, has_union, List.exists_mem_cons_iff, or_assoc]

end Operations

theorem mem_zip_map_iff {ε α β γ δ : Type} {f : α → Except ε β} {g : α → γ} {h : β → δ} {as : List α}
    {bs : List β} (hf : as.mapM f = .ok bs) {x : γ × δ} :
    x ∈ (as.map g).zip (bs.map h) ↔ ∃ a ∈ as, ∃ b, f a = .ok b ∧ x = (g a, h b) := by
  induction as generalizing bs with
  | nil =>
    cases hf
    simp
  | cons a as ih =>
    rw [List.mapM_cons] at hf
    obtain ⟨b, hb, hf⟩ := Codec.bind_eq_ok_iff.mp hf
    obtain ⟨bs, hbs, hf⟩ := Codec.bind_eq_ok_iff.mp hf
    cases hf
    rw [List.map_cons, List.map_cons, List.zip_cons_cons, List.mem_cons, ih hbs,
      List.exists_mem_cons_iff]
    refine or_congr_left ⟨fun hx => ⟨b, hb, hx⟩, fun ⟨b', hb', hx⟩ => ?_⟩
    rw [hb] at hb'
    cases hb'
    exact hx

namespace Codec

variable {r : Registry} {ns : Namespace} {c : Codec} {e : String × Ty} {d : Declared}

/-- An entry offers an operation if and only if one of its marks has it: `operationsOf` is a union.
-/
theorem has_operationsOf {n id : Nat} (hid : id < n) {marks : Table.Marks} {op : Operation} :
    ((operationsOf n marks).getD id {}).has op = true ↔ ∃ m ∈ marks, m.1 = id ∧ m.2.has op = true := by
  have hget : (operationsOf n marks).getD id {} =
      ((marks.filter (·.1 == id)).map (·.2)).foldl Operations.union {} := by
    simp [operationsOf, List.getD, List.getElem?_range hid]
  rw [hget, Operations.has_foldl_union, Operations.not_has_empty]
  simp [and_assoc]

/-- A type that a namespace declares. -/
def declared (ns : Namespace) (e : String × Ty) : Declared := ⟨ns.name, e.1, e.2⟩

theorem declared_mem (hns : ns ∈ r.namespaces) (he : e ∈ ns.types.entries) :
    declared ns e ∈ r.declarations :=
  Registry.mem_declarations_iff.mpr ⟨ns, hns, rfl, he⟩

/-- A declared type and all its aliases have the entry of the `concrete` type that they stand for.
-/
theorem Compiled.entryOf_eq (hc : Compiled r ns c) (he : e ∈ ns.types.entries)
    (hd : r.concrete (declared ns e) = .ok d) :
    entryOf c.table (keys r ns) (qualify ns.name e.1) = (keys r ns).idxOf d.qualified ∧
      d.qualified ∈ keys r ns ∧ d ∈ r.declarations := by
  change entryOf c.table (keys r ns) (declared ns e).qualified = _ ∧ _
  have hkey : (declared ns e).qualified ∈ keys r ns := key_mem_of_type he
  have hmem := declared_mem hc.mem he
  obtain ⟨hdef, hplan⟩ := hc.plan_of_declaration hc.nodup hmem hkey
  have hp : Placed r ns (declared ns e).space (declared ns e).type := placed_of_definitions hc.mem hdef
  rw [entryOf, Table.target?, hplan]
  cases href : (declared ns e).type.kind.isReference with
  | false =>
    rw [Registry.concrete_of_isReference href] at hd
    cases hd
    exact ⟨by rw [target?_ofType_of_isReference href]; rfl, hkey, hmem⟩
  | true =>
    obtain ⟨target, hk⟩ := Registry.exists_target href
    rw [Registry.concrete_of_reference hk] at hd
    obtain ⟨-, hkey', -⟩ := hc.reference hp hk hd ""
    exact ⟨by rw [hc.target?_reference hp hk hd]; rfl, hkey', Registry.mem_declarations_of_chase hd⟩

theorem Compiled.distinct_types (hc : Compiled r ns c) : (ns.types.entries.map (·.1)).Nodup := by
  have hnames := (List.nodup_append.mp hc.nodup).1
  rw [Registry.qualifiedNames, List.nodup_flatMap] at hnames
  exact (hnames.1 ns hc.mem).of_map _

theorem Compiled.types_get? (hc : Compiled r ns c) (he : e ∈ ns.types.entries) :
    c.types.get? e.1 = some (entryOf c.table (keys r ns) (qualify ns.name e.1)) := by
  refine Dict.get?_of_mem ?_ ?_
  · rw [Dict.Distinct, Dict.keys, hc.types_entries, List.map_map]
    exact hc.distinct_types
  · rw [hc.types_entries]
    exact List.mem_map.mpr ⟨e, he, rfl⟩

/-- What the types of a namespace offer. Each stands for a `concrete` type, behind all its aliases;
it offers what the origin of that type asks for, and what the manifest needs where that type is
`HeldBy` it. -/
structure Offers (r : Registry) (ns : Namespace) (c : Codec) : Prop where
  concrete : ∀ e ∈ ns.types.entries, ∃ d, r.concrete (declared ns e) = .ok d
  held : ∀ e ∈ ns.types.entries, ∀ d, r.concrete (declared ns e) = .ok d → r.HeldBy ns d →
    c.operations? e.1 = some ((Operations.ofOrigin d.type.origin).union (d.type.kind.tag.needs?.getD {}))
  unheld : ∀ e ∈ ns.types.entries, ∀ d, r.concrete (declared ns e) = .ok d → ¬ r.HeldBy ns d →
    c.operations? e.1 = some (Operations.ofOrigin d.type.origin)
  same : ∀ e ∈ ns.types.entries, ∀ e' ∈ ns.types.entries,
    r.concrete (declared ns e) = r.concrete (declared ns e') → c.operations? e.1 = c.operations? e'.1

/-- Two declared types with the same entry are the same. -/
theorem Compiled.eq_of_idxOf_eq (hc : Compiled r ns c) {d' : Declared} (hd : d ∈ r.declarations)
    (hkey : d.qualified ∈ keys r ns) (hd' : d' ∈ r.declarations)
    (h : (keys r ns).idxOf d'.qualified = (keys r ns).idxOf d.qualified) : d' = d := by
  apply Registry.eq_of_qualified_eq (List.nodup_append.mp hc.nodup).1 hd' hd
  exact ((List.idxOf_inj hkey).mp h.symm).symm

/-- What the `origins` of the declared types ask for, entry by entry. -/
theorem mem_zip_origins_iff {os : List Origin} (hos : origins r ns = .ok os) {table : Table}
    {m : Nat × Operations} : m ∈ (typeIds r ns table).zip (os.map .ofOrigin) ↔
      ∃ e ∈ ns.types.entries, ∃ o, (r.follow ns.name e.2).map (·.type.origin) = .ok o ∧
        m = (entryOf table (keys r ns) (qualify ns.name e.1), .ofOrigin o) := by
  have hids : typeIds r ns table =
      ns.types.entries.map fun e => entryOf table (keys r ns) (qualify ns.name e.1) := by
    rw [typeIds, Dict.keys, List.map_map]
    rfl
  rw [hids]
  refine mem_zip_map_iff ?_
  rw [← hos, origins, Dict.values, List.mapM_map]
  rfl

/-- The operations of an entry are those that the origin of its type asks for, and those that the
manifest needs. Marks of other types are for other entries, and so is that of the manifest's root.
-/
theorem Compiled.has_operationsAt (hc : Compiled r ns c) {os : List Origin} (hos : origins r ns = .ok os)
    {marks : Table.Marks} (hmarks : MarksOf r ns marks)
    (hops : c.operations =
      operationsOf c.table.size ((typeIds r ns c.table).zip (os.map .ofOrigin) ++ marks))
    (he : e ∈ ns.types.entries) (hd : r.concrete (declared ns e) = .ok d) {op : Operation} :
    (c.operationsAt ((keys r ns).idxOf d.qualified)).has op = true ↔
      (Operations.ofOrigin d.type.origin).has op = true ∨
        r.HeldBy ns d ∧ ∃ s, d.type.kind.tag.needs? = some s ∧ s.has op = true := by
  obtain ⟨hentry, hkey, hmem⟩ := hc.entryOf_eq he hd
  rw [operationsAt, hops, has_operationsOf (hc.idxOf_lt hkey)]
  constructor
  · intro h
    obtain ⟨m, hm, hid, hop⟩ := h
    rcases List.mem_append.mp hm with hm | hm
    · obtain ⟨e', he', o, ho, rfl⟩ := (mem_zip_origins_iff hos).mp hm
      obtain ⟨d', hd'⟩ := Registry.exists_concrete_of_validate hc.valid (declared_mem hc.mem he')
      obtain ⟨hentry', -, hmem'⟩ := hc.entryOf_eq he' hd'
      obtain rfl := hc.eq_of_idxOf_eq hmem hkey hmem' (hentry'.symm.trans hid)
      obtain ⟨x, hx, htype⟩ := Registry.exists_follow_of_concrete hd'
      rw [show r.follow ns.name e'.2 = .ok x from hx] at ho
      cases ho
      rw [← htype]
      exact .inl hop
    · rcases (hmarks m).mp hm with ⟨hroot, rfl⟩ | ⟨d', hheld, hid', hneeds⟩
      · obtain ⟨t, ht⟩ := Option.isSome_iff_exists.mp hroot
        refine absurd ?_ (Registry.qualified_ne_manifestKey hc.nodup hc.mem ht hmem)
        exact (List.idxOf_inj hkey).mp hid.symm
      · obtain ⟨space, q, target, hin, hk, hchase⟩ := hheld
        obtain rfl := hc.eq_of_idxOf_eq hmem hkey (Registry.mem_declarations_of_chase hchase) (hid'.trans hid)
        exact .inr ⟨⟨space, q, target, hin, hk, hchase⟩, m.2, hneeds, hop⟩
  · intro hop
    rcases hop with hop | ⟨hheld, s, hneeds, hop⟩
    · obtain ⟨x, hx, htype⟩ := Registry.exists_follow_of_concrete hd
      refine ⟨_, List.mem_append_left _ ((mem_zip_origins_iff hos).mpr ⟨e, he, x.type.origin, ?_, rfl⟩),
        hentry, ?_⟩
      · rw [show r.follow ns.name e.2 = .ok x from hx]
        rfl
      · rwa [htype]
    · refine ⟨(_, s), List.mem_append_right _ ((hmarks _).mpr (.inr ⟨d, hheld, rfl, hneeds⟩)), rfl, hop⟩

theorem Compiled.operations?_eq (hc : Compiled r ns c) (he : e ∈ ns.types.entries)
    (hd : r.concrete (declared ns e) = .ok d) :
    c.operations? e.1 = some (c.operationsAt ((keys r ns).idxOf d.qualified)) := by
  rw [operations?, hc.types_get? he, (hc.entryOf_eq he hd).1, Option.map_some]

theorem offers_of_marks (hc : Compiled r ns c) {os : List Origin} (hos : origins r ns = .ok os)
    {marks : Table.Marks} (hmarks : MarksOf r ns marks)
    (hops : c.operations =
      operationsOf c.table.size ((typeIds r ns c.table).zip (os.map .ofOrigin) ++ marks)) :
    Offers r ns c where
  concrete e he := Registry.exists_concrete_of_validate hc.valid (declared_mem hc.mem he)
  held e he d hd hheld := by
    rw [hc.operations?_eq he hd]
    refine congrArg some (Operations.ext_has fun op => ?_)
    rw [hc.has_operationsAt hos hmarks hops he hd, Operations.has_union, and_iff_right hheld]
    refine or_congr_right ?_
    cases d.type.kind.tag.needs? with
    | none => simp [Operations.not_has_empty]
    | some s => simp
  unheld e he d hd hheld := by
    rw [hc.operations?_eq he hd]
    refine congrArg some (Operations.ext_has fun op => ?_)
    rw [hc.has_operationsAt hos hmarks hops he hd, or_iff_left fun h => hheld h.1]
  same e he e' he' h := by
    obtain ⟨d, hd⟩ := Registry.exists_concrete_of_validate hc.valid (declared_mem hc.mem he)
    rw [hc.operations?_eq he hd, hc.operations?_eq he' (h.symm.trans hd)]

/-- A namespace is generated where its manifest does not have what `HasUnreadable` says. -/
theorem exists_generate_iff (hk : r.registrationKeys.Nodup) {name : String} {x : Draft}
    (h : draft r name = .ok x) (settings : Settings) :
    (∃ c, generate r settings name = .ok c) ↔ ¬ r.HasUnreadable x.ns := by
  constructor
  · intro ⟨c, hc⟩
    obtain ⟨x', marks, hx', hmarks, -⟩ := generate_eq_ok_iff.mp hc
    rw [h] at hx'
    cases hx'
    rcases marks_cases h hk with ⟨hreadable, -⟩ | ⟨-, owner, key, kind, herror⟩
    · exact hreadable
    · rw [herror] at hmarks
      cases hmarks
  · intro hreadable
    rcases marks_cases h hk with ⟨-, marks, hmarks, -⟩ | ⟨hbad, -⟩
    · exact ⟨_, generate_eq_ok_iff.mpr ⟨x, marks, h, hmarks, rfl⟩⟩
    · exact absurd hbad hreadable

/-- A draft does not look at the manifest beyond its root. -/
theorem draft_ne_unsupported {name owner key kind : String} :
    draft r name ≠ .error (.unsupportedManifestProperty owner key kind) := by
  intro h
  cases hv : r.validate with
  | error e =>
    have hschema := Registry.isSchema_of_validate hv
    rw [draft, hv] at h
    cases h
    cases hschema
  | ok _ => cases isDraft_of_draft hv h

/-- With distinct `registrationKeys`, types offer what their origin and the manifest ask for
(`Offers`). The walk through the manifest comes to an end; it fails if and only if there is a
property in the manifest that cannot be read, and this is reported once everything before the walk
has succeeded. -/
theorem offers_of_generate (hk : r.registrationKeys.Nodup) :
    (∀ settings name c, generate r settings name = .ok c →
      ∃ ns, r.namespace? name = some ns ∧ Offers r ns c) ∧
    (∀ (table : Table) (visited : List Nat) (ps : List OwnedProperty), ∃ bound, ∀ n, bound ≤ n →
      table.walkWithin n visited ps = some (table.walk visited ps)) ∧
    ∀ settings name, (∃ owner key kind,
      generate r settings name = .error (.unsupportedManifestProperty owner key kind)) ↔
        ∃ x, draft r name = .ok x ∧ r.HasUnreadable x.ns := by
  refine ⟨fun settings name c hc => ?_, fun table visited ps => ?_, fun settings name => ⟨?_, ?_⟩⟩
  · obtain ⟨x, marks, hx, hmarks, rfl⟩ := generate_eq_ok_iff.mp hc
    obtain ⟨-, hns, hos, -, -⟩ := draft_eq_ok_iff.mp hx
    refine ⟨x.ns, getNamespace_eq_ok_iff.mp hns, ?_⟩
    rcases marks_cases hx hk with ⟨-, marks', hmarks', hof⟩ | ⟨-, owner, key, kind, herror⟩
    · rw [hmarks] at hmarks'
      cases hmarks'
      refine offers_of_marks (compiled_of_draft hx hk fun hm => ?_) hos hof rfl
      rw [Draft.marks, hm] at hmarks
      cases hmarks
      rfl
    · rw [herror] at hmarks
      cases hmarks
  · exact ⟨table.work visited ps, fun n hn => Table.walkWithin_eq hn⟩
  · intro h
    obtain ⟨owner, key, kind, h⟩ := h
    rcases generate_eq_error_iff.mp h with h | ⟨x, hx, h⟩
    · exact absurd h draft_ne_unsupported
    · rcases marks_cases hx hk with ⟨-, marks, hmarks, -⟩ | ⟨hbad, -⟩
      · rw [h] at hmarks
        cases hmarks
      · exact ⟨x, hx, hbad⟩
  · intro h
    obtain ⟨x, hx, hbad⟩ := h
    rcases marks_cases hx hk with ⟨hreadable, -⟩ | ⟨-, owner, key, kind, herror⟩
    · exact absurd hbad hreadable
    · exact ⟨owner, key, kind, generate_eq_error_iff.mpr (.inr ⟨x, hx, herror⟩)⟩

end Codec

/-! ## Types of a codec without a manifest -/

namespace Codec

variable {r : Registry} {ns : Namespace} {c : Codec}

theorem compiled_of_generate {settings : Settings} {name : String} (h : generate r settings name = .ok c)
    (hns : r.namespace? name = some ns) (hk : r.registrationKeys.Nodup) : Compiled r ns c := by
  obtain ⟨ns', hv, hns', hof⟩ := exists_of_generate h
  rw [hns] at hns'
  cases hns'
  exact ⟨hof, hv, hk⟩

theorem exists_compiled {settings : Settings} {name : String}
    (h : ∃ c, generate r settings name = .ok c) (hns : r.namespace? name = some ns)
    (hk : r.registrationKeys.Nodup) : ∃ c, generate r settings name = .ok c ∧ Compiled r ns c := by
  obtain ⟨c, hc⟩ := h
  exact ⟨c, hc, compiled_of_generate hc hns hk⟩

theorem offers_of_manifest_eq_none (hc : Compiled r ns c) (hm : ns.manifest = none) : Offers r ns c := by
  obtain ⟨os, marks, hos, hmarks, hops⟩ := hc.operations
  rw [hmarks hm] at hops
  exact offers_of_marks hc hos (marksOf_nil hm) hops

/-- The entry that a codec has for a declared type that is no alias, where there is no manifest. -/
theorem Compiled.exists_typeId (hc : Compiled r ns c) (hm : ns.manifest = none) {key : String} {t : Ty}
    (he : (key, t) ∈ ns.types.entries) (ht : t.kind.isReference = false) :
    ∃ id, c.typeId key = .ok id ∧ c.operationsAt id = .ofOrigin t.origin ∧
      c.table.plan id = ofType r (keys r ns) ns.name (qualify ns.name key) t := by
  have hd : r.concrete (declared ns (key, t)) = .ok ⟨ns.name, key, t⟩ :=
    Registry.concrete_of_isReference ht
  obtain ⟨hentry, hkey, hmem⟩ := hc.entryOf_eq he hd
  obtain ⟨-, hplan⟩ := hc.plan_of_declaration hc.nodup hmem hkey
  have htype : c.types.get? key = some ((keys r ns).idxOf (qualify ns.name key)) :=
    (hc.types_get? he).trans (congrArg some hentry)
  refine ⟨(keys r ns).idxOf (qualify ns.name key), ?_, ?_, hplan⟩
  · rw [typeId, htype]
  · have hheld : ¬ r.HeldBy ns ⟨ns.name, key, t⟩ := by
      intro hheld
      obtain ⟨space, q, -, hin, -⟩ := hheld
      exact not_inManifest hm space q hin
    have hops := (offers_of_manifest_eq_none hc hm).unheld _ he _ hd hheld
    rw [operations?, htype] at hops
    exact Option.some.inj hops

/-- The type that a codec has for a declared object, where there is no manifest. -/
theorem Compiled.exists_objectType (hc : Compiled r ns c) (hm : ns.manifest = none) {key : String}
    {name : Option String} {ps : Dict Property} {a : Option Ty} {origin : Origin}
    (he : (key, ⟨name, .object ps a, origin⟩) ∈ ns.types.entries) :
    ∃ t, c.object key = .ok t ∧ t.codec = c ∧ t.operations = .ofOrigin origin ∧
      Plan.inline (.object t.plan) =
        ofType r (keys r ns) ns.name (qualify ns.name key) ⟨name, .object ps a, origin⟩ := by
  obtain ⟨id, htype, hops, hplan⟩ := hc.exists_typeId hm he rfl
  obtain ⟨o, ho⟩ : ∃ o, ofType r (keys r ns) ns.name (qualify ns.name key)
      ⟨name, .object ps a, origin⟩ = .inline (.object o) := ⟨_, by rw [ofType, ofKind]⟩
  refine ⟨⟨c, id, o⟩, ?_, rfl, hops, ho.symm⟩
  rw [object, htype]
  simp only [bind, Except.bind, Table.shape, hplan, ho]

/-- The type that a codec has for a declared choice, where there is no manifest. -/
theorem Compiled.exists_choicesType (hc : Compiled r ns c) (hm : ns.manifest = none) {key : String}
    {name : Option String} {ts : List Ty} {origin : Origin}
    (he : (key, ⟨name, .choices ts, origin⟩) ∈ ns.types.entries) :
    ∃ t, c.choices key = .ok t ∧ t.codec = c ∧ t.operations = .ofOrigin origin ∧
      Plan.inline (.choices t.plan) =
        ofType r (keys r ns) ns.name (qualify ns.name key) ⟨name, .choices ts, origin⟩ := by
  obtain ⟨id, htype, hops, hplan⟩ := hc.exists_typeId hm he rfl
  obtain ⟨p, hp⟩ : ∃ p, ofType r (keys r ns) ns.name (qualify ns.name key)
      ⟨name, .choices ts, origin⟩ = .inline (.choices p) := ⟨_, by rw [ofType, ofKind]⟩
  refine ⟨⟨c, id, p⟩, ?_, rfl, hops, hp.symm⟩
  rw [choices, htype]
  simp only [bind, Except.bind, Table.shape, hplan, hp]

end Codec

/-! ## The extension -/

namespace Extension

theorem exists_codec : ∃ c, Codec.generate registry {} "app" = .ok c := by
  obtain ⟨x, hx⟩ := exists_draft
  obtain ⟨-, hns, -⟩ := Codec.draft_eq_ok_iff.mp hx
  refine (Codec.exists_generate_iff nodup_registrationKeys hx {}).mpr ?_
  apply Registry.not_hasUnreadable (Registry.mem_of_namespace? (Codec.getNamespace_eq_ok_iff.mp hns))
  decide

theorem chase_icon : registry.chase [] "app" "Icon" = .ok ⟨"app", "Icon", icon⟩ :=
  Registry.chase_of_lookup rfl List.not_mem_nil rfl

theorem chase_action : registry.chase [] "app" "Action" = .ok ⟨"app", "Action", action⟩ :=
  Registry.chase_of_lookup rfl List.not_mem_nil rfl

theorem chase_command : registry.chase [] "app" "Command" = .ok ⟨"app", "Action", action⟩ := by
  rw [Registry.chase_of_alias (d := ⟨"app", "Command", command⟩) rfl List.not_mem_nil rfl]
  exact Registry.chase_of_lookup rfl (by decide) rfl

theorem inManifest_action :
    registry.InManifest app "app" ⟨"action", true, Ty.ofKind (.reference "Command")⟩ := by
  refine .root (t := manifest) (x := ⟨"app", none, manifest⟩) rfl rfl rfl ?_
  exact List.mem_of_getElem? (i := 2) rfl

theorem heldBy_action : registry.HeldBy app ⟨"app", "Action", action⟩ :=
  ⟨"app", _, "Command", inManifest_action, rfl, chase_command⟩

theorem heldBy_icon : registry.HeldBy app ⟨"app", "Icon", icon⟩ := by
  refine ⟨"app", ⟨"icon", true, Ty.ofKind (.reference "Icon")⟩, "Icon", ?_, rfl, chase_icon⟩
  refine .inside inManifest_action (Registry.follow_of_chase rfl chase_command) rfl ?_
  exact List.mem_of_getElem? (i := 1) rfl

end Extension

/-- The alias of an action offers what the action does, and the manifest needs icons too. -/
theorem Codec.offers_of_generate_extension :
    Extension.registry.registrationKeys.Nodup ∧ ∃ c, generate Extension.registry {} "app" = .ok c ∧
      c.operations? "Command" = some ⟨true, true, true, true, true⟩ ∧
      c.operations? "Icon" = some { populate := true, parse := true } := by
  obtain ⟨c, hc⟩ := Extension.exists_codec
  obtain ⟨ns, hns, hoffers⟩ := (offers_of_generate Extension.nodup_registrationKeys).1 {} "app" c hc
  obtain rfl : Extension.app = ns := Option.some.inj hns
  refine ⟨Extension.nodup_registrationKeys, c, hc, ?_, ?_⟩
  · exact hoffers.held ("Command", Extension.command) (List.mem_of_getElem? (i := 2) rfl) _
      Extension.chase_action Extension.heldBy_action
  · exact hoffers.held ("Icon", Extension.icon) (List.mem_of_getElem? (i := 1) rfl) _ rfl
      Extension.heldBy_icon

/-! ## A knot

A type that contains itself is reported before the manifest is looked at. -/

namespace Knot

def link : Ty := (Ty.object [⟨"next", false, Ty.ofKind (.reference "Link")⟩]).named "Link"

def manifest : Ty := Ty.object [⟨"icon", false, Ty.ofKind .binary⟩]

def knot : Namespace := ((Namespace.empty "knot").withType link).withManifest manifest

def registry : Registry where
  namespaces := [knot]
  distinct := by decide

theorem hasUnreadable : registry.HasUnreadable knot := by
  refine ⟨"knot", ⟨"icon", false, Ty.ofKind .binary⟩, ⟨"knot", none, Ty.ofKind .binary⟩, ?_, rfl, rfl⟩
  refine .root (t := manifest) (x := ⟨"knot", none, manifest⟩) rfl rfl rfl ?_
  exact List.mem_of_getElem? (i := 0) rfl

/-- Though its manifest holds a property that cannot be read, this is not what is reported. -/
theorem not_unsupported : registry.registrationKeys.Nodup ∧ registry.namespace? "knot" = some knot ∧
    Codec.generate registry {} "knot" = .error (.recursiveRequired ["knot.Link", "knot.Link"]) ∧
    ¬ ((∃ owner key kind, Codec.generate registry {} "knot" =
      .error (.unsupportedManifestProperty owner key kind)) ↔ registry.HasUnreadable knot) := by
  have herror : Codec.generate registry {} "knot" =
      .error (.recursiveRequired ["knot.Link", "knot.Link"]) :=
    Codec.eq_error_of_error? (by decide +kernel)
  refine ⟨by decide, rfl, herror, fun h => ?_⟩
  obtain ⟨owner, key, kind, h⟩ := h.mpr hasUnreadable
  rw [herror] at h
  cases h

end Knot

end Interchange
