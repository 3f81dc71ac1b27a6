import Interchange.Proofs.Checking

/-! # Generation is modular

A reference that leads to a type leads to the same type when more namespaces are there
(`chase_of_subset`), and in whatever order they are listed, since their names are distinct.
Generation follows none but such references. So the codec of a namespace stays the same in every
larger registry, as long as that one is valid (`generate_of_subset`).
-/

namespace Interchange

open Plan Schema

/-! ## References in a larger registry -/

namespace Registry

variable {r r' : Registry} {ns : Namespace} {name space target : String} {d : Declared} {t : Ty}

/-- Names of namespaces are distinct, so `namespace?` finds the same whichever comes first. -/
theorem namespace?_eq_some_iff : r.namespace? name = some ns ↔ ns ∈ r.namespaces ∧ ns.name = name := by
  refine ⟨fun h => ⟨mem_of_namespace? h, by simpa using List.find?_some h⟩, fun h => ?_⟩
  obtain ⟨hns, rfl⟩ := h
  cases hf : r.namespace? ns.name with
  | none => simpa using List.find?_eq_none.mp hf ns hns
  | some ns' =>
    have hname : ns'.name = ns.name := by simpa using List.find?_some hf
    rw [List.inj_on_of_nodup_map r.distinct (mem_of_namespace? hf) hns hname]

section Subset

variable (hsub : r.namespaces ⊆ r'.namespaces)

include hsub

theorem namespace?_of_subset (h : r.namespace? name = some ns) : r'.namespace? name = some ns := by
  obtain ⟨hns, hname⟩ := namespace?_eq_some_iff.mp h
  exact namespace?_eq_some_iff.mpr ⟨hsub hns, hname⟩

theorem lookupQualified_of_subset (h : r.lookupQualified target = some d) :
    r'.lookupQualified target = some d := by
  simp only [lookupQualified, Option.bind_eq_bind, Option.bind_eq_some_iff] at h ⊢
  obtain ⟨parts, hparts, ns, hns, hd⟩ := h
  exact ⟨parts, hparts, ns, namespace?_of_subset hsub hns, hd⟩

theorem lookup_of_subset (h : r.lookup space target = .ok d) : r'.lookup space target = .ok d := by
  obtain ⟨home, hhome, h⟩ := lookup_eq_ok_iff.mp h
  apply lookup_eq_ok_iff.mpr
  refine ⟨home, namespace?_of_subset hsub hhome, h.imp_right fun h => ?_⟩
  exact ⟨h.1, lookupQualified_of_subset hsub h.2⟩

theorem chase_of_subset {seen : List String} (h : r.chase seen space target = .ok d) :
    r'.chase seen space target = .ok d := by
  fun_induction chase r seen space target with
  | case1 => cases h
  | case2 => cases h
  | case3 seen space target d' hl hs next hk ih =>
    rw [chase_of_alias (lookup_of_subset hsub hl) hs hk]
    exact ih h
  | case4 seen space target d' hl hs hk =>
    cases h
    apply chase_of_lookup (lookup_of_subset hsub hl) hs
    cases hd : d.type.kind with
    | reference next => exact absurd hd (hk next)
    | _ => rfl

theorem destination?_of_subset (h : r.destination? space target = some d) :
    r'.destination? space target = some d :=
  destination?_eq_some_iff.mpr (chase_of_subset hsub (destination?_eq_some_iff.mp h))

theorem follow_of_subset {x : Resolved} (h : r.follow space t = .ok x) : r'.follow space t = .ok x := by
  cases href : t.kind.isReference with
  | false =>
    rw [follow_of_isReference href] at h ⊢
    exact h
  | true =>
    obtain ⟨target, hk⟩ := exists_target href
    rw [follow_of_reference hk] at h
    cases hc : r.chase [] space target with
    | error e =>
      rw [hc] at h
      cases h
    | ok d =>
      rw [hc] at h
      rw [follow_of_chase hk (chase_of_subset hsub hc)]
      exact h

theorem holdsIn_of_subset (h : r.HoldsIn space t) : r'.HoldsIn space t := by
  obtain ⟨ns, hns, h⟩ := h
  exact ⟨ns, hsub hns, h⟩

theorem meets_of_subset (h : r.Meets space t) : r'.Meets space t := by
  refine ⟨fun href => ?_, h.someVariant, h.someMember⟩
  obtain ⟨x, hx⟩ := h.leads href
  exact ⟨x, follow_of_subset hsub hx⟩

end Subset

/-- The order of the namespaces makes no difference to `validate`. -/
theorem validate_of_perm (hp : r.namespaces.Perm r'.namespaces) (hv : r.validate = .ok ()) :
    r'.validate = .ok () := by
  apply validate_eq_ok_iff.mpr
  intro space t h
  exact meets_of_subset hp.subset (validate_eq_ok_iff.mp hv space t (holdsIn_of_subset hp.symm.subset h))

/-! ## Types that mean the same in two registries -/

/-- The references in a type have the same `destination?` in both registries. -/
def AgreeOn (r r' : Registry) (space : String) (t : Ty) : Prop :=
  ∀ target ∈ t.targets, r'.destination? space target = r.destination? space target

theorem AgreeOn.part {u : Ty} (h : AgreeOn r r' space t) (hu : Ty.Part u t) : AgreeOn r r' space u :=
  fun target ht => h target (Ty.mem_targets_iff.mpr (.inr ⟨u, hu, ht⟩))

/-- A validated type means the same in every larger registry, in the sense of `AgreeOn`. -/
theorem agreeOn_of_holdsIn (hsub : r.namespaces ⊆ r'.namespaces) (hv : r.validate = .ok ())
    (h : r.HoldsIn space t) : AgreeOn r r' space t := by
  intro target ht
  obtain ⟨d, hd⟩ := exists_destination? hv h ht
  rw [hd, destination?_of_subset hsub hd]

theorem follow_eq_of_holdsIn (hsub : r.namespaces ⊆ r'.namespaces) (hv : r.validate = .ok ())
    (h : r.HoldsIn space t) : r'.follow space t = r.follow space t := by
  obtain ⟨x, hx⟩ := exists_follow_of_validate hv h
  rw [hx, follow_of_subset hsub hx]

theorem destinations_congr {targets : List String}
    (h : ∀ target ∈ targets, r'.destination? space target = r.destination? space target) :
    r'.destinations space targets = r.destinations space targets := by
  apply List.filterMap_congr
  intro target ht
  rw [h target ht]

end Registry

namespace Plan

variable {r r' : Registry} {keys : List String} {space owner : String} {t : Ty}

theorem label_congr (h : r.AgreeOn r' space t) : label r' space t = label r space t := by
  unfold label
  cases t.name with
  | some name => rfl
  | none =>
    cases hk : t.kind with
    | reference target =>
      dsimp only
      rw [h target (Ty.mem_targets_iff.mpr (.inl hk))]
    | _ => rfl

theorem ofProperties_congr {ps : List (String × Property)}
    (h : ∀ e ∈ ps, ∀ owner, ofType r' keys space owner e.2.type = ofType r keys space owner e.2.type) :
    ofProperties r' keys space owner ps = ofProperties r keys space owner ps := by
  induction ps with
  | nil => rw [ofProperties, ofProperties]
  | cons e ps ih =>
    obtain ⟨key, name, optional, type⟩ := e
    rw [List.forall_mem_cons] at h
    rw [ofProperties, ofProperties, ih h.2, h.1]

theorem ofVariants_congr {ts : List Ty} (hl : ∀ t ∈ ts, label r' space t = label r space t)
    (h : ∀ t ∈ ts, ofType r' keys space owner t = ofType r keys space owner t) :
    ofVariants r' keys space owner ts = ofVariants r keys space owner ts := by
  induction ts with
  | nil => rw [ofVariants, ofVariants]
  | cons t ts ih =>
    rw [List.forall_mem_cons] at hl h
    rw [ofVariants, ofVariants, ih hl.2 h.2, hl.1, h.1]

/-- A type is compiled by `ofType` to the same plan if its parts are, and its own reference leads to
the same type. -/
theorem ofType_congr_of_parts (h : r.AgreeOn r' space t)
    (hparts : ∀ u, Ty.Part u t → ∀ owner, ofType r' keys space owner u = ofType r keys space owner u)
    (owner : String) : ofType r' keys space owner t = ofType r keys space owner t := by
  obtain ⟨name, kind, origin⟩ := t
  rw [ofType, ofType]
  cases kind with
  | object ps a =>
    rw [ofKind, ofKind, ofProperties_congr fun e he => hparts e.2.type (.property he)]
    cases a with
    | none => rw [ofAdditional, ofAdditional]
    | some a => rw [ofAdditional, ofAdditional, hparts a .additional]
  | array items => rw [ofKind, ofKind, hparts items .item]
  | choices ts =>
    rw [ofKind, ofKind, ofVariants_congr (fun u hu => label_congr (h.part (.variant hu)))
      fun u hu => hparts u (.variant hu) owner]
  | reference target =>
    rw [ofKind, ofKind, ofReference, ofReference, h target (Ty.mem_targets_iff.mpr (.inl rfl))]
  | boolean | integer | int64 | double | string | any | binary | enumeration | function =>
    rw [ofKind, ofKind]

theorem ofType_congr {t : Ty} (h : r.AgreeOn r' space t) (owner : String) :
    ofType r' keys space owner t = ofType r keys space owner t :=
  ofType_congr_of_parts h (fun u hu owner => ofType_congr (h.part hu) owner) owner
termination_by sizeOf t
decreasing_by exact Ty.Part.sizeOf_lt hu

theorem ofParams_congr {ps : List Property} (h : ∀ q ∈ ps, r.AgreeOn r' space q.type) :
    ofParams r' keys space owner ps = ofParams r keys space owner ps := by
  rw [ofParams, ofParams, ofProperties_congr]
  intro e he owner
  obtain ⟨q, hq, rfl⟩ := List.mem_map.mp he
  exact ofType_congr (h q hq) owner

end Plan

/-! ## Searches -/

namespace Discovery

variable {r r' : Registry} {s : Discovery} {d : Definition} {ds : List Definition}

theorem mem_pending_enterAll (h : d ∈ (s.enterAll ds).pending) : d ∈ s.pending ∨ d ∈ ds := by
  induction ds generalizing s with
  | nil => exact .inl h
  | cons e ds ih =>
    rcases ih h with h | h
    · rw [enter] at h
      split at h
      · exact .inl h
      · rcases List.mem_cons.mp h with rfl | h
        · exact .inr List.mem_cons_self
        · exact .inl h
    · exact .inr (List.mem_cons_of_mem _ h)

/-- Two searches by `finish` find the same if they look into the same definitions, and these refer
to the same. -/
theorem finish_congr {P : Definition → Prop} (hP : ∀ d, P d → d.references r' = d.references r)
    (hnext : ∀ d, P d → ∀ e ∈ d.references r, P e) (hs : ∀ d ∈ s.pending, P d) :
    s.finish r' = s.finish r := by
  fun_induction finish r s with
  | case1 s hp => exact finish_of_nil hp
  | case2 s d rest hp ih =>
    have hd : P d := hs d (hp ▸ List.mem_cons_self)
    have hrest : ∀ e ∈ (enterAll ⟨s.found, rest⟩ (d.references r)).pending, P e := by
      intro e he
      rcases mem_pending_enterAll he with he | he
      · exact hs e (hp ▸ List.mem_cons_of_mem _ he)
      · exact hnext d hd e he
    rw [finish_of_pending hp, hP d hd]
    exact ih hrest

end Discovery

/-! ## Codecs -/

theorem mapM_congr_left {ε α β : Type} {f g : α → Except ε β} {as : List α}
    (h : ∀ a ∈ as, f a = g a) : as.mapM f = as.mapM g := by
  induction as with
  | nil => rfl
  | cons a as ih =>
    rw [List.forall_mem_cons] at h
    rw [List.mapM_cons, List.mapM_cons, h.1, ih h.2]

namespace Codec

variable {r r' : Registry} {ns : Namespace} {settings : Settings} {name : String} {c : Codec}

section Subset

variable (hsub : r.namespaces ⊆ r'.namespaces) (hv : r.validate = .ok ()) (hns : ns ∈ r.namespaces)

include hsub hv hns

theorem agreeOn_of_params {ps : List Property} (hps : ps ∈ ns.paramLists) :
    ∀ q ∈ ps, r.AgreeOn r' ns.name q.type :=
  fun _ hq => Registry.agreeOn_of_holdsIn hsub hv (Registry.holdsIn_of_param hns hps hq)

theorem roots_eq : roots r' ns = roots r ns := by
  unfold roots
  congr 1
  apply Registry.destinations_congr
  intro target ht
  obtain ⟨ps, hps, q, hq, ht⟩ := mem_callTargets.mp ht
  exact agreeOn_of_params hsub hv hns hps q hq target ht

/-- The search for definitions meets validated types only, so it finds the same. -/
theorem definitions_eq : definitions r' ns = definitions r ns := by
  unfold definitions
  rw [roots_eq hsub hv hns]
  refine Discovery.finish_congr (fun d hd => ?_) (fun d _ e he => ?_) (fun d hd => ?_)
    (P := fun d : Definition => r.HoldsIn d.space d.type)
  · exact Registry.destinations_congr (Registry.agreeOn_of_holdsIn hsub hv hd)
  · obtain ⟨d', hd', rfl⟩ := Registry.exists_of_destinations he
    exact Registry.holdsIn_of_declaration hd'
  · rcases Discovery.mem_pending_enterAll hd with hd | hd
    · cases hd
    · simp only [roots, List.mem_append, List.mem_map, Option.mem_toList] at hd
      rcases hd with (⟨e, he, rfl⟩ | ⟨t, ht, rfl⟩) | hd
      · exact Registry.holdsIn_of_type hns he
      · exact Registry.holdsIn_of_manifest hns ht
      · obtain ⟨d', hd', rfl⟩ := Registry.exists_of_destinations hd
        exact Registry.holdsIn_of_declaration hd'

theorem keys_eq : keys r' ns = keys r ns := by
  rw [keys, keys, definitions_eq hsub hv hns]

theorem entries_eq (keys : List String) :
    (definitions r' ns).map (ofDefinition r' keys) = (definitions r ns).map (ofDefinition r keys) := by
  rw [definitions_eq hsub hv hns]
  apply List.map_congr_left
  intro d hd
  rw [ofDefinition, ofDefinition,
    ofType_congr (Registry.agreeOn_of_holdsIn hsub hv (holdsIn_of_definitions hns hd))]

theorem origins_eq : origins r' ns = origins r ns := by
  unfold origins
  apply mapM_congr_left
  intro t ht
  obtain ⟨e, he, rfl⟩ := List.mem_map.mp ht
  rw [Registry.follow_eq_of_holdsIn hsub hv (Registry.holdsIn_of_type hns he)]

theorem checkManifest_eq : checkManifest r' ns = checkManifest r ns := by
  unfold checkManifest
  cases hm : ns.manifest with
  | none => rfl
  | some t =>
    dsimp only
    rw [Registry.follow_eq_of_holdsIn hsub hv (Registry.holdsIn_of_manifest hns hm)]

theorem functionPlan_eq {f : FunctionDecl} (hf : f ∈ ns.functions.values) (keys : List String)
    (name : String) : functionPlan r' keys ns.name name f = functionPlan r keys ns.name name f := by
  have hmem {ps : List Property} (h : ps ∈ f.params :: f.results.toList) : ps ∈ ns.paramLists :=
    List.mem_append_left _ (List.mem_flatMap.mpr ⟨f, hf, h⟩)
  rw [functionPlan, functionPlan,
    ofParams_congr (agreeOn_of_params hsub hv hns (hmem List.mem_cons_self))]
  cases hr : f.results with
  | none => rfl
  | some ps =>
    have hps : ps ∈ f.results.toList := Option.mem_toList.mpr hr
    rw [Option.map_some, Option.map_some,
      ofParams_congr (agreeOn_of_params hsub hv hns (hmem (List.mem_cons_of_mem _ hps)))]

theorem eventPlan_eq {e : EventDecl} (he : e ∈ ns.events.values) (keys : List String) (name : String) :
    eventPlan r' keys ns.name name e = eventPlan r keys ns.name name e := by
  have hmem : e.params ∈ ns.paramLists := List.mem_append_right _ (List.mem_map.mpr ⟨e, he, rfl⟩)
  rw [eventPlan, eventPlan, ofParams_congr (agreeOn_of_params hsub hv hns hmem)]

end Subset

section Draft

variable {d : Draft} (hsub : r.namespaces ⊆ r'.namespaces) (hd : draft r name = .ok d)

include hsub hd

theorem draft_of_subset (hv' : r'.validate = .ok ()) : draft r' name = .ok d := by
  obtain ⟨hv, hns, hos, hm, htable⟩ := draft_eq_ok_iff.mp hd
  have hfound := getNamespace_eq_ok_iff.mp hns
  have hmem := Registry.mem_of_namespace? hfound
  apply draft_eq_ok_iff.mpr
  rw [origins_eq hsub hv hmem, checkManifest_eq hsub hv hmem, keys_eq hsub hv hmem,
    entries_eq hsub hv hmem]
  exact ⟨hv', getNamespace_eq_ok_iff.mpr (Registry.namespace?_of_subset hsub hfound), hos, hm, htable⟩

theorem codec_eq (marks : Table.Marks) : d.codec r' settings marks = d.codec r settings marks := by
  obtain ⟨hv, hns, -⟩ := draft_eq_ok_iff.mp hd
  have hmem := Registry.mem_of_namespace? (getNamespace_eq_ok_iff.mp hns)
  have hids : typeIds r' d.ns d.table = typeIds r d.ns d.table := by
    rw [typeIds, typeIds, definitions_eq hsub hv hmem]
  have hfunctions : (d.ns.functions.entries.map fun e =>
      (e.1, functionPlan r' (keys r d.ns) d.ns.name e.1 e.2)) =
      d.ns.functions.entries.map fun e => (e.1, functionPlan r (keys r d.ns) d.ns.name e.1 e.2) := by
    apply List.map_congr_left
    intro e he
    rw [functionPlan_eq hsub hv hmem (List.mem_map.mpr ⟨e, he, rfl⟩)]
  have hevents : (d.ns.events.entries.map fun e =>
      (e.1, eventPlan r' (keys r d.ns) d.ns.name e.1 e.2)) =
      d.ns.events.entries.map fun e => (e.1, eventPlan r (keys r d.ns) d.ns.name e.1 e.2) := by
    apply List.map_congr_left
    intro e he
    rw [eventPlan_eq hsub hv hmem (List.mem_map.mpr ⟨e, he, rfl⟩)]
  rw [Draft.codec, Draft.codec, Draft.root, Draft.root, hids, keys_eq hsub hv hmem]
  exact congrArg₂ (fun functions events => Codec.mk _ _ _ _ _ _ ⟨functions⟩ ⟨events⟩) hfunctions hevents

theorem marks_eq : d.marks r' = d.marks r := by
  obtain ⟨hv, hns, -⟩ := draft_eq_ok_iff.mp hd
  have hmem := Registry.mem_of_namespace? (getNamespace_eq_ok_iff.mp hns)
  rw [Draft.marks, Draft.marks, Draft.root, Draft.root, keys_eq hsub hv hmem]

end Draft

theorem generate_of_subset (hsub : r.namespaces ⊆ r'.namespaces) (hv' : r'.validate = .ok ())
    (h : generate r settings name = .ok c) : generate r' settings name = .ok c := by
  obtain ⟨d, marks, hd, hmarks, hcodec⟩ := generate_eq_ok_iff.mp h
  apply generate_eq_ok_iff.mpr
  refine ⟨d, marks, draft_of_subset hsub hd hv', ?_, ?_⟩
  · rw [marks_eq hsub hd, hmarks]
  · rw [codec_eq hsub hd, hcodec]

/-- Whatever `generate` makes for a namespace it makes in every valid registry that has the same
namespaces and maybe others, and it does not depend on the order of the namespaces. -/
theorem modular_of_generate (h : generate r settings name = .ok c) :
    (r.namespaces ⊆ r'.namespaces → r'.validate = .ok () → generate r' settings name = .ok c) ∧
      (r.namespaces.Perm r'.namespaces → generate r' settings name = .ok c) := by
  refine ⟨fun hsub hv' => generate_of_subset hsub hv' h, fun hp => ?_⟩
  obtain ⟨ns, hv, -⟩ := exists_of_generate h
  exact generate_of_subset hp.subset (Registry.validate_of_perm hp hv) h

end Codec

/-! ## Homonyms among others -/

namespace Homonyms

def swapped : Registry where
  namespaces := [inner, outer]
  distinct := by decide

def larger : Registry where
  namespaces := [inner, Shop.shop, outer]
  distinct := by decide

end Homonyms

theorem Codec.modular_of_generate_homonyms :
    ∃ c, generate Homonyms.registry {} "a" = .ok c ∧
      Homonyms.registry.namespaces ⊆ Homonyms.larger.namespaces ∧ Homonyms.larger.validate = .ok () ∧
      generate Homonyms.larger {} "a" = .ok c ∧
      Homonyms.registry.namespaces.Perm Homonyms.swapped.namespaces ∧
      generate Homonyms.swapped {} "a" = .ok c := by
  obtain ⟨c, hc⟩ := Homonyms.exists_codec
  have hsub : Homonyms.registry.namespaces ⊆ Homonyms.larger.namespaces := by
    simp [Homonyms.registry, Homonyms.larger]
  have hp : Homonyms.registry.namespaces.Perm Homonyms.swapped.namespaces := List.Perm.swap _ _ _
  obtain ⟨⟨⟩, hv⟩ := exists_of_isOk (x := Homonyms.larger.validate) (by decide +kernel)
  exact ⟨c, hc, hsub, hv, (modular_of_generate hc).1 hsub hv, hp, (modular_of_generate hc).2 hp⟩

end Interchange
