import Interchange.Proofs.Generation
import Interchange.Proofs.Walk

/-! # Validation and compilation agree

A registry is valid when every type in it, at any depth, is in order by itself (`Meets`): a
reference leads to a type, and there is something to choose from. Compilation looks at types in
another order, beginning with one namespace and going wherever references lead; yet it meets no type
that has not been validated where it stands. So it makes no difference whether it checks types once
more (`generateChecked`).
-/

namespace Interchange

open Plan Schema
open Relation (ReflTransGen)

/-! ## Types that are in order -/

namespace Registry

variable {r : Registry} {ns : Namespace} {space place : String} {t u : Ty} {x : Demand}

/-- A type in the namespace of the given name is in order, apart from the types in it. This is what
`meet` checks. -/
structure Meets (r : Registry) (space : String) (t : Ty) : Prop where
  leads : t.kind.isReference = true → ∃ x, r.follow space t = .ok x
  someVariant : t.kind ≠ .choices []
  someMember : t.kind ≠ .enumeration []

/-- What is demanded of a type itself; `demands` adds what is demanded of the types in it. -/
def ownDemand? (place : String) (t : Ty) : Option Demand :=
  match t.kind with
  | .reference _ => some (.leads t)
  | .choices variants => some (.someVariant place variants)
  | .enumeration members => some (.someMember place members)
  | _ => none

theorem meet_leads_iff : r.meet space (.leads t) = .ok () ↔ ∃ x, r.follow space t = .ok x := by
  rw [meet]
  cases r.follow space t with
  | error e =>
    refine iff_of_false (fun h => by cases h) fun h => ?_
    obtain ⟨x, hx⟩ := h
    cases hx
  | ok x => exact iff_of_true rfl ⟨x, rfl⟩

theorem meet_someVariant_iff {variants : List Ty} :
    r.meet space (.someVariant place variants) = .ok () ↔ variants ≠ [] := by
  cases variants <;> simp [meet]

theorem meet_someMember_iff {members : List String} :
    r.meet space (.someMember place members) = .ok () ↔ members ≠ [] := by
  cases members <;> simp [meet]

/-- A type is in order when its `ownDemand?` is met. -/
theorem meets_iff (place : String) :
    r.Meets space t ↔ ∀ x, ownDemand? place t = some x → r.meet space x = .ok () := by
  unfold ownDemand?
  refine ⟨fun h x hx => ?_, fun h => ⟨fun href => ?_, fun hk => ?_, fun hk => ?_⟩⟩
  · split at hx
    · rename_i target hk
      cases hx
      exact meet_leads_iff.mpr (h.leads (by rw [hk]; rfl))
    · rename_i variants hk
      cases hx
      apply meet_someVariant_iff.mpr
      rintro rfl
      exact h.someVariant hk
    · rename_i members hk
      cases hx
      apply meet_someMember_iff.mpr
      rintro rfl
      exact h.someMember hk
    · cases hx
  · obtain ⟨target, hk⟩ := exists_target href
    rw [hk] at h
    exact meet_leads_iff.mp (h _ rfl)
  · rw [hk] at h
    exact meet_someVariant_iff.mp (h _ rfl) rfl
  · rw [hk] at h
    exact meet_someMember_iff.mp (h _ rfl) rfl

theorem mem_demands_of_ownDemand? (h : ownDemand? place t = some x) : x ∈ demands place t := by
  obtain ⟨name, kind, origin⟩ := t
  rw [demands]
  cases kind with
  | reference target =>
    cases h
    rw [kindDemands]
    exact List.mem_singleton_self _
  | choices variants =>
    cases h
    rw [kindDemands]
    exact List.mem_cons_self
  | enumeration members =>
    cases h
    rw [kindDemands]
    exact List.mem_singleton_self _
  | boolean | integer | int64 | double | string | any | binary | function | array | object => cases h

theorem exists_of_mem_propertyDemands {ps : List (String × Property)} (h : x ∈ propertyDemands place ps) :
    ∃ e ∈ ps, x ∈ demands (place ++ "." ++ e.1) e.2.type := by
  induction ps with
  | nil => cases h
  | cons e ps ih =>
    obtain ⟨key, name, optional, type⟩ := e
    rw [propertyDemands] at h
    rcases List.mem_append.mp h with h | h
    · exact ⟨_, List.mem_cons_self, h⟩
    · obtain ⟨e, he, h⟩ := ih h
      exact ⟨e, List.mem_cons_of_mem _ he, h⟩

theorem exists_of_mem_variantDemands {ts : List Ty} (h : x ∈ variantDemands place ts) :
    ∃ t ∈ ts, x ∈ demands place t := by
  induction ts with
  | nil => cases h
  | cons t ts ih =>
    rw [variantDemands] at h
    rcases List.mem_append.mp h with h | h
    · exact ⟨t, List.mem_cons_self, h⟩
    · obtain ⟨t, ht, h⟩ := ih h
      exact ⟨t, List.mem_cons_of_mem _ ht, h⟩

/-- A demand is the `ownDemand?` of the type, or one of a type that stands in it. -/
theorem demands_cases (h : x ∈ demands place t) :
    ownDemand? place t = some x ∨ ∃ u place', Ty.Part u t ∧ x ∈ demands place' u := by
  obtain ⟨name, kind, origin⟩ := t
  rw [demands] at h
  cases kind with
  | reference target =>
    rw [kindDemands] at h
    exact .inl (congrArg some (List.mem_singleton.mp h).symm)
  | enumeration members =>
    rw [kindDemands] at h
    exact .inl (congrArg some (List.mem_singleton.mp h).symm)
  | choices variants =>
    rw [kindDemands] at h
    rcases List.mem_cons.mp h with rfl | h
    · exact .inl rfl
    · obtain ⟨u, hu, h⟩ := exists_of_mem_variantDemands h
      exact .inr ⟨u, place, .variant hu, h⟩
  | array items =>
    rw [kindDemands] at h
    exact .inr ⟨items, place, .item, h⟩
  | object ps a =>
    rw [kindDemands] at h
    rcases List.mem_append.mp h with h | h
    · obtain ⟨e, he, h⟩ := exists_of_mem_propertyDemands h
      exact .inr ⟨e.2.type, _, .property he, h⟩
    · cases a with
      | none => cases h
      | some a => exact .inr ⟨a, place, .additional, h⟩
  | boolean | integer | int64 | double | string | any | binary | function => cases h

/-- A demand is the `ownDemand?` of a single type, at whatever depth it stands. -/
theorem exists_ownDemand? {t : Ty} {place : String} (h : x ∈ demands place t) :
    ∃ u place', ReflTransGen Ty.Part u t ∧ ownDemand? place' u = some x := by
  rcases demands_cases h with h | ⟨u, place', hu, h⟩
  · exact ⟨t, place, .refl, h⟩
  · obtain ⟨w, place'', hw, h⟩ := exists_ownDemand? h
    exact ⟨w, place'', hw.tail hu, h⟩
termination_by sizeOf t
decreasing_by exact Ty.Part.sizeOf_lt hu

theorem exists_root_of_paramDemands {owner : String} {ps : List Property} (hps : ps ∈ ns.paramLists)
    (h : x ∈ paramDemands owner ps) : ∃ t ∈ ns.rootTypes, ∃ place, x ∈ demands place t := by
  obtain ⟨q, hq, h⟩ := List.mem_flatMap.mp h
  refine ⟨q.type, List.mem_append_right _ (List.mem_flatMap.mpr ⟨ps, hps, ?_⟩), _, h⟩
  exact List.mem_map.mpr ⟨q, hq, rfl⟩

/-- Only what a namespace declares or uses is looked at: its `rootTypes`. -/
theorem exists_root_of_namespaceDemands (h : x ∈ namespaceDemands ns) :
    ∃ t ∈ ns.rootTypes, ∃ place, x ∈ demands place t := by
  simp only [namespaceDemands, List.mem_append, List.mem_flatMap, or_assoc] at h
  rcases h with ⟨e, he, h⟩ | ⟨t, ht, h⟩ | ⟨f, hf, h⟩ | ⟨e, he, h⟩
  · refine ⟨e.2, List.mem_append_left _ (List.mem_append_left _ ?_), _, h⟩
    exact List.mem_map.mpr ⟨e, he, rfl⟩
  · exact ⟨t, List.mem_append_left _ (List.mem_append_right _ ht), _, h⟩
  · rcases List.mem_append.mp h with h | h
    · apply exists_root_of_paramDemands _ h
      exact List.mem_append_left _ (List.mem_flatMap.mpr ⟨f, hf, List.mem_cons_self⟩)
    · cases hr : f.results with
      | none =>
        rw [hr] at h
        cases h
      | some ps =>
        rw [hr] at h
        apply exists_root_of_paramDemands _ h
        refine List.mem_append_left _ (List.mem_flatMap.mpr ⟨f, hf, List.mem_cons_of_mem _ ?_⟩)
        exact Option.mem_toList.mpr hr
  · apply exists_root_of_paramDemands _ h
    exact List.mem_append_right _ (List.mem_map.mpr ⟨e, he, rfl⟩)

/-- A registry is valid if and only if every type in it `Meets` its demands where it stands. -/
theorem validate_eq_ok_iff : r.validate = .ok () ↔ ∀ space t, r.HoldsIn space t → r.Meets space t := by
  simp only [validate, forM_eq_ok_iff]
  constructor
  · intro h space t ⟨ns, hns, hspace, root, hroot, hpart⟩
    obtain ⟨place, hroot⟩ := exists_demands_of_root hroot
    obtain ⟨place', hpart⟩ := exists_demands_of_within hpart place
    rw [meets_iff place', ← hspace]
    exact fun x hx => h ns hns x (hroot x (hpart x (mem_demands_of_ownDemand? hx)))
  · intro h ns hns x hx
    obtain ⟨root, hroot, place, hx⟩ := exists_root_of_namespaceDemands hx
    obtain ⟨u, place', hu, hx⟩ := exists_ownDemand? hx
    exact (meets_iff place').mp (h ns.name u ⟨ns, hns, rfl, root, hroot, hu⟩) x hx

end Registry

/-! ## Compilation with checks -/

namespace Plan

variable {r : Registry} {keys : List String} {space owner : String} {t : Ty}

/-- The `label` of a variant, which a reference that leads nowhere does not have. -/
def checkLabel (r : Registry) (space : String) (t : Ty) : Except GenerateError String :=
  match t.name with
  | some name => .ok name
  | none =>
    if t.kind.isReference then (r.follow space t).map fun x => x.name.getD x.type.kind.name
    else .ok t.kind.name

mutual

/-- The plan of a type as `ofType` makes it, if the type and all types in it are in order. -/
def checkType (r : Registry) (keys : List String) (space owner : String) : Ty → Except GenerateError Plan
  | ⟨name, kind, _⟩ => checkKind r keys space owner (name.getD owner) kind

def checkKind (r : Registry) (keys : List String) (space owner name : String) :
    Kind Ty → Except GenerateError Plan
  | .boolean => .ok (.inline .boolean)
  | .integer => .ok (.inline .integer)
  | .int64 => .ok (.inline .int64)
  | .double => .ok (.inline .double)
  | .string => .ok (.inline .string)
  | .binary => .ok (.inline .binary)
  | .any => .ok (.inline .any)
  | .function serializable => .ok (.inline (.function serializable))
  | .enumeration members =>
    if members.isEmpty then .error (.emptyEnumeration owner)
    else .ok (.inline (.enumeration ⟨name, members⟩))
  | .array items => do
    let p ← checkType r keys space owner items
    return .inline (.array p)
  | .object ⟨properties⟩ additional => do
    let ps ← checkProperties r keys space name properties
    let a ← checkAdditional r keys space name additional
    return .inline (.object ⟨name, ps, a⟩)
  | .choices variants =>
    if variants.isEmpty then .error (.emptyChoices owner)
    else do
      let vs ← checkVariants r keys space owner variants
      return .inline (.choices ⟨name, vs⟩)
  | .reference target => do
    let d ← r.chase [] space target
    return .named (keys.idxOf d.qualified)

def checkProperties (r : Registry) (keys : List String) (space owner : String) :
    List (String × Schema.PropertyOf Ty) → Except GenerateError (List (PropertyOf Plan))
  | [] => .ok []
  | (_, ⟨name, optional, type⟩) :: ps => do
    let p ← checkType r keys space (owner ++ "." ++ name) type
    let rest ← checkProperties r keys space owner ps
    return ⟨name, optional, p⟩ :: rest

def checkAdditional (r : Registry) (keys : List String) (space owner : String) :
    Option Ty → Except GenerateError (Option Plan)
  | none => .ok none
  | some t => do
    let p ← checkType r keys space owner t
    return some p

def checkVariants (r : Registry) (keys : List String) (space owner : String) :
    List Ty → Except GenerateError (List (VariantOf Plan))
  | [] => .ok []
  | t :: ts => do
    let label ← checkLabel r space t
    let p ← checkType r keys space owner t
    let rest ← checkVariants r keys space owner ts
    return ⟨label, p⟩ :: rest

end

def checkParams (r : Registry) (keys : List String) (space owner : String) (params : List Property) :
    Except GenerateError ObjectPlan := do
  let ps ← checkProperties r keys space owner (params.map fun p => (p.name, p))
  return ⟨owner, ps, none⟩

def checkDefinition (r : Registry) (keys : List String) (d : Definition) : Except GenerateError Entry := do
  let p ← checkType r keys d.space d.display d.type
  return ⟨d.display, p⟩

/-- A type passes all checks of `checkType`, and has the plan that it has without them. -/
def Checks (r : Registry) (keys : List String) (space : String) (t : Ty) : Prop :=
  ∀ owner, checkType r keys space owner t = .ok (ofType r keys space owner t)

theorem checkLabel_eq (h : r.Meets space t) : checkLabel r space t = .ok (label r space t) := by
  unfold checkLabel label
  cases t.name with
  | some name => rfl
  | none =>
    dsimp only
    cases href : t.kind.isReference with
    | false =>
      cases hk : t.kind with
      | reference target =>
        rw [hk] at href
        cases href
      | _ => rfl
    | true =>
      obtain ⟨target, hk⟩ := Registry.exists_target href
      obtain ⟨x, hx⟩ := h.leads href
      rw [Registry.follow_of_reference hk] at hx ⊢
      rw [hk]
      cases hd : r.chase [] space target with
      | error e =>
        rw [hd] at hx
        cases hx
      | ok d =>
        dsimp only
        rw [Registry.destination?_eq_some_iff.mpr hd]
        rfl

theorem checkProperties_eq {ps : List (String × Property)} (h : ∀ e ∈ ps, Checks r keys space e.2.type) :
    checkProperties r keys space owner ps = .ok (ofProperties r keys space owner ps) := by
  induction ps with
  | nil => rw [checkProperties, ofProperties]
  | cons e ps ih =>
    obtain ⟨key, name, optional, type⟩ := e
    rw [List.forall_mem_cons] at h
    rw [checkProperties, ofProperties, h.1, ih h.2]
    rfl

theorem checkVariants_eq {ts : List Ty} (hm : ∀ t ∈ ts, r.Meets space t)
    (h : ∀ t ∈ ts, Checks r keys space t) :
    checkVariants r keys space owner ts = .ok (ofVariants r keys space owner ts) := by
  induction ts with
  | nil => rw [checkVariants, ofVariants]
  | cons t ts ih =>
    rw [List.forall_mem_cons] at hm h
    rw [checkVariants, ofVariants, checkLabel_eq hm.1, h.1, ih hm.2 h.2]
    rfl

/-- A type passes its checks if it `Meets` its demands, and so do the types that stand in it. -/
theorem checks_of_parts (hm : r.Meets space t) (hparts : ∀ u, Ty.Part u t → r.Meets space u)
    (h : ∀ u, Ty.Part u t → Checks r keys space u) : Checks r keys space t := by
  intro owner
  obtain ⟨name, kind, origin⟩ := t
  rw [checkType, ofType]
  cases kind with
  | object ps a =>
    rw [checkKind, ofKind, checkProperties_eq fun e he => h e.2.type (.property he)]
    cases a with
    | none => rw [checkAdditional, ofAdditional]; rfl
    | some a => rw [checkAdditional, ofAdditional, h a .additional]; rfl
  | array items =>
    rw [checkKind, ofKind, h items .item]
    rfl
  | choices ts =>
    have hne : ts.isEmpty = false := by
      cases ts with
      | nil => exact absurd rfl hm.someVariant
      | cons => rfl
    have hvariants : checkVariants r keys space owner ts = .ok (ofVariants r keys space owner ts) :=
      checkVariants_eq (fun u hu => hparts u (.variant hu)) fun u hu => h u (.variant hu)
    rw [checkKind, ofKind, hne, hvariants]
    rfl
  | enumeration members =>
    have hne : members.isEmpty = false := by
      cases members with
      | nil => exact absurd rfl hm.someMember
      | cons => rfl
    rw [checkKind, ofKind, hne]
    rfl
  | reference target =>
    obtain ⟨x, hx⟩ := hm.leads rfl
    rw [Registry.follow_of_reference rfl] at hx
    rw [checkKind, ofKind, ofReference]
    cases hd : r.chase [] space target with
    | error e =>
      rw [hd] at hx
      cases hx
    | ok d =>
      rw [Registry.destination?_eq_some_iff.mpr hd]
      rfl
  | boolean | integer | int64 | double | string | any | binary | function => rw [checkKind, ofKind]

/-- In a valid registry every type passes its checks, at whatever depth it stands. -/
theorem checks_of_holdsIn {t : Ty} (hv : r.validate = .ok ()) (h : r.HoldsIn space t) :
    Checks r keys space t :=
  checks_of_parts (Registry.validate_eq_ok_iff.mp hv space t h)
    (fun u hu => Registry.validate_eq_ok_iff.mp hv space u (h.part hu))
    fun u hu => checks_of_holdsIn hv (h.part hu)
termination_by sizeOf t
decreasing_by exact Ty.Part.sizeOf_lt hu

theorem label_eq_of_checkLabel {l : String} (h : checkLabel r space t = .ok l) : label r space t = l := by
  revert h
  unfold checkLabel label
  cases t.name with
  | some name => exact Except.ok.inj
  | none =>
    cases hk : t.kind with
    | reference target =>
      rw [Registry.follow_of_reference hk]
      cases hd : r.chase [] space target with
      | error e =>
        intro h
        cases h
      | ok d =>
        dsimp only
        rw [Registry.destination?_eq_some_iff.mpr hd]
        exact Except.ok.inj
    | _ => exact Except.ok.inj

theorem ofProperties_eq_of_checkProperties {ps : List (String × Property)} {qs : List PropertyPlan}
    (hps : ∀ e ∈ ps, ∀ owner p, checkType r keys space owner e.2.type = .ok p →
      ofType r keys space owner e.2.type = p)
    (h : checkProperties r keys space owner ps = .ok qs) : ofProperties r keys space owner ps = qs := by
  induction ps generalizing qs with
  | nil =>
    rw [checkProperties] at h
    cases h
    rw [ofProperties]
  | cons e ps ih =>
    obtain ⟨key, name, optional, type⟩ := e
    rw [List.forall_mem_cons] at hps
    simp only [checkProperties, Codec.bind_eq_ok_iff] at h
    obtain ⟨p, hp, rest, hrest, h⟩ := h
    cases h
    rw [ofProperties, hps.1 _ p hp, ih hps.2 hrest]

theorem ofVariants_eq_of_checkVariants {ts : List Ty} {vs : List VariantPlan}
    (hts : ∀ t ∈ ts, ∀ p, checkType r keys space owner t = .ok p → ofType r keys space owner t = p)
    (h : checkVariants r keys space owner ts = .ok vs) : ofVariants r keys space owner ts = vs := by
  induction ts generalizing vs with
  | nil =>
    rw [checkVariants] at h
    cases h
    rw [ofVariants]
  | cons t ts ih =>
    rw [List.forall_mem_cons] at hts
    simp only [checkVariants, Codec.bind_eq_ok_iff] at h
    obtain ⟨l, hl, p, hp, rest, hrest, h⟩ := h
    cases h
    rw [ofVariants, label_eq_of_checkLabel hl, hts.1 p hp, ih hts.2 hrest]

theorem ofType_eq_of_parts {p : Plan}
    (hparts : ∀ u, Ty.Part u t → ∀ owner p, checkType r keys space owner u = .ok p →
      ofType r keys space owner u = p)
    (h : checkType r keys space owner t = .ok p) : ofType r keys space owner t = p := by
  obtain ⟨name, kind, origin⟩ := t
  rw [checkType] at h
  rw [ofType]
  cases kind with
  | object ps a =>
    simp only [checkKind, Codec.bind_eq_ok_iff] at h
    obtain ⟨qs, hqs, b, hb, h⟩ := h
    cases h
    rw [ofKind, ofProperties_eq_of_checkProperties (fun e he => hparts e.2.type (.property he)) hqs]
    cases a with
    | none =>
      cases hb
      rw [ofAdditional]
    | some a =>
      simp only [checkAdditional, Codec.bind_eq_ok_iff] at hb
      obtain ⟨q, hq, hb⟩ := hb
      cases hb
      rw [ofAdditional, hparts a .additional _ q hq]
  | array items =>
    simp only [checkKind, Codec.bind_eq_ok_iff] at h
    obtain ⟨q, hq, h⟩ := h
    cases h
    rw [ofKind, hparts items .item _ q hq]
  | choices ts =>
    simp only [checkKind] at h
    split at h
    · cases h
    · obtain ⟨vs, hvs, h⟩ := Codec.bind_eq_ok_iff.mp h
      cases h
      rw [ofKind, ofVariants_eq_of_checkVariants (fun u hu => hparts u (.variant hu) owner) hvs]
  | enumeration members =>
    simp only [checkKind] at h
    split at h
    · cases h
    · cases h
      rw [ofKind]
  | reference target =>
    simp only [checkKind, Codec.bind_eq_ok_iff] at h
    obtain ⟨d, hd, h⟩ := h
    cases h
    rw [ofKind, ofReference_of_destination? (Registry.destination?_eq_some_iff.mpr hd)]
  | boolean | integer | int64 | double | string | any | binary | function =>
    cases h
    rw [ofKind]

/-- Whatever passes `checkType` has the plan that it has without checks. -/
theorem ofType_eq_of_checkType {t : Ty} {owner : String} {p : Plan}
    (h : checkType r keys space owner t = .ok p) : ofType r keys space owner t = p :=
  ofType_eq_of_parts (fun _ _ _ _ h => ofType_eq_of_checkType h) h
termination_by sizeOf t
decreasing_by exact Ty.Part.sizeOf_lt ‹_›

end Plan

/-! ## Generation with checks -/

/-- The errors that are left where a namespace of a valid registry is generated. -/
def GenerateError.isLate : GenerateError → Bool
  | .unknownNamespace _ | .manifestNotObject _ _ | .recursiveRequired _ | .recursiveChoices _
  | .unsupportedManifestProperty _ _ _ => true
  | _ => false

theorem GenerateError.isLate_of_isDraft {e : GenerateError} (h : e.isDraft = true) : e.isLate = true := by
  cases e with
  | unsupportedManifestProperty => rfl
  | _ => exact h

/-- Whatever stops a walk through a manifest is a property that cannot be read. -/
theorem Table.isLate_of_manifestMarks {t : Table} {root : Nat} {e : GenerateError}
    (h : t.manifestMarks root = .error e) : e.isLate = true := by
  cases hs : t.shape (.named root) with
  | object o =>
    by_cases hbad : ∃ q, t.ReachesProperty o q ∧ (t.shape q.plan).tag.isUnreadable = true
    · obtain ⟨o', q, -, -, -, herror⟩ := manifestMarks_of_unreadable hs hbad
      rw [herror] at h
      cases h
      rfl
    · rw [manifestMarks_of_readable hs fun q hq => Bool.eq_false_iff.mpr fun hq' => hbad ⟨q, hq, hq'⟩] at h
      cases h
  | _ =>
    rw [manifestMarks, hs] at h
    cases h

theorem ok_bind {ε α β : Type} (a : α) (f : α → Except ε β) : (Except.ok a >>= f) = f a := rfl

theorem mapM_eq_ok_map {ε α β : Type} {f : α → Except ε β} {g : α → β} {as : List α}
    (h : ∀ a ∈ as, f a = .ok (g a)) : as.mapM f = .ok (as.map g) := by
  induction as with
  | nil => rfl
  | cons a as ih =>
    rw [List.forall_mem_cons] at h
    rw [List.mapM_cons, h.1, ih h.2]
    rfl

namespace Codec

variable {r : Registry} {ns : Namespace} {settings : Settings} {name : String} {e : GenerateError}

def checkFunction (r : Registry) (keys : List String) (space name : String) (f : FunctionDecl) :
    Except GenerateError FunctionPlan := do
  let params ← checkParams r keys space (qualify space name ++ ".params") f.params
  let results ← f.results.mapM (checkParams r keys space (qualify space name ++ ".results"))
  return ⟨name, params, results⟩

def checkEvent (r : Registry) (keys : List String) (space name : String) (e : EventDecl) :
    Except GenerateError EventPlan := do
  let params ← checkParams r keys space (qualify space name) e.params
  return ⟨name, qualify space name, params⟩

def checkEach {α β : Type} (check : String → α → Except GenerateError β) (d : Dict α) :
    Except GenerateError (Dict β) := do
  let entries ← d.entries.mapM fun e => (check e.1 e.2).map (e.1, ·)
  return ⟨entries⟩

/-- Generates the codec of a namespace as `generate` does, and checks every type again when it is
compiled. -/
def generateChecked (r : Registry) (settings : Settings) (name : String) : Except GenerateError Codec := do
  r.validate
  let ns ← r.getNamespace name
  let origins ← origins r ns
  checkManifest r ns
  let functions ← checkEach (checkFunction r (keys r ns) ns.name) ns.functions
  let events ← checkEach (checkEvent r (keys r ns) ns.name) ns.events
  let entries ← (definitions r ns).mapM (checkDefinition r (keys r ns))
  let table ← Table.ofEntries entries
  let d : Draft := ⟨ns, origins, table⟩
  let marks ← d.marks r
  return { d.codec r settings marks with functions, events }

theorem checkEach_eq {α β : Type} {check : String → α → Except GenerateError β} {f : String → α → β}
    {d : Dict α} (h : ∀ name, ∀ a ∈ d.values, check name a = .ok (f name a)) :
    checkEach check d = .ok ⟨d.entries.map fun e => (e.1, f e.1 e.2)⟩ := by
  rw [checkEach, mapM_eq_ok_map (g := fun e => (e.1, f e.1 e.2)), ok_bind]
  · rfl
  · intro e he
    rw [h e.1 e.2 (List.mem_map.mpr ⟨e, he, rfl⟩)]
    rfl

theorem checkParams_eq (hv : r.validate = .ok ()) (hns : ns ∈ r.namespaces) {ps : List Property}
    (hps : ps ∈ ns.paramLists) (keys : List String) (owner : String) :
    checkParams r keys ns.name owner ps = .ok (ofParams r keys ns.name owner ps) := by
  rw [checkParams, checkProperties_eq, ofParams]
  · rfl
  · intro e he
    obtain ⟨q, hq, rfl⟩ := List.mem_map.mp he
    exact checks_of_holdsIn hv (Registry.holdsIn_of_param hns hps hq)

theorem checkFunction_eq (hv : r.validate = .ok ()) (hns : ns ∈ r.namespaces) {f : FunctionDecl}
    (hf : f ∈ ns.functions.values) (keys : List String) (name : String) :
    checkFunction r keys ns.name name f = .ok (functionPlan r keys ns.name name f) := by
  have hmem {ps : List Property} (h : ps ∈ f.params :: f.results.toList) : ps ∈ ns.paramLists :=
    List.mem_append_left _ (List.mem_flatMap.mpr ⟨f, hf, h⟩)
  rw [checkFunction, checkParams_eq hv hns (hmem List.mem_cons_self), functionPlan]
  cases hr : f.results with
  | none => rfl
  | some ps =>
    have hps : ps ∈ f.results.toList := Option.mem_toList.mpr hr
    rw [ok_bind, Option.mapM_some, checkParams_eq hv hns (hmem (List.mem_cons_of_mem _ hps))]
    rfl

theorem checkEvent_eq (hv : r.validate = .ok ()) (hns : ns ∈ r.namespaces) {e : EventDecl}
    (he : e ∈ ns.events.values) (keys : List String) (name : String) :
    checkEvent r keys ns.name name e = .ok (eventPlan r keys ns.name name e) := by
  have hmem : e.params ∈ ns.paramLists := List.mem_append_right _ (List.mem_map.mpr ⟨e, he, rfl⟩)
  rw [checkEvent, checkParams_eq hv hns hmem]
  rfl

/-- Whatever is discovered has been validated in its own namespace, so `checkDefinition` does not
fail. -/
theorem checkDefinition_eq (hv : r.validate = .ok ()) (hns : ns ∈ r.namespaces) {d : Definition}
    (hd : d ∈ definitions r ns) (keys : List String) :
    checkDefinition r keys d = .ok (ofDefinition r keys d) := by
  rw [checkDefinition, checks_of_holdsIn hv (holdsIn_of_definitions hns hd)]
  rfl

/-- After validation no check fails. -/
theorem generateChecked_eq (r : Registry) (settings : Settings) (name : String) :
    generateChecked r settings name = generate r settings name := by
  rw [generate_eq, generateChecked, draft]
  cases hv : r.validate with
  | error e => rfl
  | ok _ =>
    cases hns : r.getNamespace name with
    | error e => rfl
    | ok ns =>
      have hmem := Registry.mem_of_namespace? (getNamespace_eq_ok_iff.mp hns)
      have hf := checkEach_eq fun name f hf => checkFunction_eq hv hmem hf (keys r ns) name
      have he := checkEach_eq fun name e he => checkEvent_eq hv hmem he (keys r ns) name
      have hd := mapM_eq_ok_map fun d hd => checkDefinition_eq hv hmem hd (keys r ns)
      simp only [bind_assoc, ok_bind, pure_bind, hf, he, hd]
      simp only [bind_pure_comp]
      rfl

theorem isLate_of_generate (hv : r.validate = .ok ()) (h : generate r settings name = .error e) :
    e.isLate = true := by
  rcases generate_eq_error_iff.mp h with h | ⟨d, -, h⟩
  · exact GenerateError.isLate_of_isDraft (isDraft_of_draft hv h)
  · unfold Draft.marks at h
    split at h
    · cases h
    · exact Table.isLate_of_manifestMarks h

/-- Validation finds out whether all types are in order, and leaves nothing to check when they are
compiled. In a valid registry only the errors are left that are not about single types. -/
theorem validate_suffices (r : Registry) :
    (r.validate = .ok () ↔ ∀ space t, r.HoldsIn space t → r.Meets space t) ∧
    (∀ settings name, generateChecked r settings name = generate r settings name) ∧
    (r.validate = .ok () →
      ∀ settings name e, generate r settings name = .error e → e.isLate = true) :=
  ⟨Registry.validate_eq_ok_iff, generateChecked_eq r, fun hv _ _ _ h => isLate_of_generate hv h⟩

/-- The types of the extension are in order, so that another namespace is all that can be asked for
in vain. -/
theorem validate_suffices_extension : Extension.registry.validate = .ok () ∧
    (∀ space t, Extension.registry.HoldsIn space t → Extension.registry.Meets space t) ∧
    generateChecked Extension.registry {} "other" = .error (.unknownNamespace "other") ∧
    (GenerateError.unknownNamespace "other").isLate = true := by
  obtain ⟨d, hd⟩ := Extension.exists_draft
  have hv := (draft_eq_ok_iff.mp hd).1
  obtain ⟨hvalid, hchecked, hlate⟩ := validate_suffices Extension.registry
  have herror : generate Extension.registry {} "other" = .error (.unknownNamespace "other") :=
    eq_error_of_error? (by decide +kernel)
  exact ⟨hv, hvalid.mp hv, (hchecked {} "other").trans herror, hlate hv {} "other" _ herror⟩

end Codec

end Interchange
