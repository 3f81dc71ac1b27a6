import Interchange.Proofs.Modularity

/-! # Following references

A reference is looked up in the namespace of the type that it stands in, and leads to a declared
type, which may be a reference again. So look-ups make a `chain`. It ends at a type that is no
reference or at a reference that names nothing, or it has no end. Following goes along the chain
until it ends or a name comes again, which takes at most one look-up more than there are types
(`followWithin`). When qualified names are distinct, a chain on which a name comes again runs in a
circle, and so the result of following tells which of the three it is (`Classifies`).
-/

namespace Interchange

open Schema

/-- What a reference names. -/
def Schema.Kind.referent? {τ : Type} : Kind τ → Option String
  | .reference target => some target
  | _ => none

theorem Schema.Kind.referent?_eq_some_iff {τ : Type} {k : Kind τ} {target : String} :
    k.referent? = some target ↔ k = .reference target := by
  cases k <;> simp [referent?]

theorem Schema.Kind.referent?_eq_none_iff {τ : Type} {k : Kind τ} :
    k.referent? = none ↔ k.isReference = false := by
  cases k <;> simp [referent?, isReference, tag]

namespace Registry

variable {r : Registry} {x y z : Resolved} {d : Declared} {m n : Nat} {seen names : List String}
  {space target : String} {result : Except GenerateError Resolved}

/-! ## The chain of look-ups -/

/-- What a reference leads to directly. -/
def next? (r : Registry) (x : Resolved) : Option Resolved :=
  x.type.kind.referent?.bind fun target => (r.lookup x.space target).toOption.map Declared.resolved

/-- What a type leads to by so many look-ups, one `next?` after the other. -/
def chain (r : Registry) (x : Resolved) : Nat → Option Resolved
  | 0 => some x
  | n + 1 => (r.chain x n).bind r.next?

theorem next?_of_lookup (hk : x.type.kind = .reference target) (hl : r.lookup x.space target = .ok d) :
    r.next? x = some d.resolved := by
  simp [next?, Kind.referent?_eq_some_iff.mpr hk, hl, Except.toOption]

theorem next?_of_isReference (hk : x.type.kind.isReference = false) : r.next? x = none := by
  simp [next?, Kind.referent?_eq_none_iff.mpr hk]

theorem next?_of_dangling (hk : x.type.kind = .reference target)
    (hl : ∀ d, r.lookup x.space target ≠ .ok d) : r.next? x = none := by
  cases hd : r.lookup x.space target with
  | error e => simp [next?, Kind.referent?_eq_some_iff.mpr hk, hd, Except.toOption]
  | ok d => exact absurd hd (hl d)

theorem exists_declared_of_next? (h : r.next? x = some y) : ∃ d ∈ r.declarations, d.resolved = y := by
  obtain ⟨target, -, h⟩ := Option.bind_eq_some_iff.mp h
  obtain ⟨d, hd, rfl⟩ := Option.map_eq_some_iff.mp h
  cases hl : r.lookup x.space target with
  | error e => simp [hl, Except.toOption] at hd
  | ok d' =>
    simp only [hl, Except.toOption, Option.some.injEq] at hd
    subst hd
    exact ⟨d', mem_declarations_of_lookup hl, rfl⟩

theorem exists_declared_of_chain (h : r.chain x (n + 1) = some y) :
    ∃ d ∈ r.declarations, d.resolved = y := by
  obtain ⟨z, -, hz⟩ := Option.bind_eq_some_iff.mp h
  exact exists_declared_of_next? hz

theorem chain_add : r.chain x (m + n) = (r.chain x m).bind fun y => r.chain y n := by
  induction n with
  | zero => simp [chain]
  | succ n ih =>
    rw [← Nat.add_assoc]
    simp only [chain, ih, Option.bind_assoc]

theorem chain_of_next? (h : r.next? x = some y) : r.chain x (n + 1) = r.chain y n := by
  rw [Nat.add_comm, chain_add]
  simp [chain, h]

theorem exists_chain_of_le (hle : m ≤ n) (h : r.chain x n = some y) : ∃ z, r.chain x m = some z := by
  obtain ⟨k, rfl⟩ := Nat.exists_eq_add_of_le hle
  rw [chain_add] at h
  obtain ⟨z, hz, -⟩ := Option.bind_eq_some_iff.mp h
  exact ⟨z, hz⟩

/-- Behind its end a `chain` has nothing. -/
theorem le_of_next?_eq_none (hm : r.chain x m = some y) (hy : r.next? y = none)
    (hn : r.chain x n = some z) : n ≤ m := by
  by_contra hlt
  obtain ⟨w, hw⟩ := exists_chain_of_le (Nat.lt_of_not_le hlt) hn
  simp [chain, hm, hy] at hw

theorem end_unique (hm : r.chain x m = some y) (hy : r.next? y = none)
    (hn : r.chain x n = some z) (hz : r.next? z = none) : y = z := by
  have hmn : m = n := Nat.le_antisymm (le_of_next?_eq_none hn hz hm) (le_of_next?_eq_none hm hy hn)
  rw [hmn, hn] at hm
  exact (Option.some.inj hm).symm

/-- A `chain` that comes to a type twice goes on for ever. -/
theorem exists_chain_of_again (hm : r.chain x m = some y) (hn : r.chain x n = some y) (hlt : m < n)
    (k : Nat) : ∃ z, r.chain x k = some z := by
  obtain ⟨round, rfl⟩ := Nat.exists_eq_add_of_lt hlt
  rw [Nat.add_assoc, chain_add, hm, Option.bind_some] at hn
  -- With every round the chain comes to `y` again, so it does beyond any number of look-ups.
  have hlater : ∀ k, ∃ l ≥ k, r.chain x l = some y := by
    intro k
    induction k with
    | zero => exact ⟨m, Nat.zero_le m, hm⟩
    | succ k ih =>
      obtain ⟨l, hl, hy⟩ := ih
      refine ⟨l + (round + 1), by omega, ?_⟩
      rw [chain_add, hy, Option.bind_some, hn]
  obtain ⟨l, hl, hy⟩ := hlater k
  exact exists_chain_of_le hl hy

/-- Among distinct names one stands for one type. -/
theorem eq_of_qualified? (hnd : r.qualifiedNames.Nodup) (hy : r.chain x (m + 1) = some y)
    (hz : r.chain x (n + 1) = some z) (h : y.qualified? = z.qualified?) : y = z := by
  obtain ⟨d, hd, rfl⟩ := exists_declared_of_chain hy
  obtain ⟨e, he, rfl⟩ := exists_declared_of_chain hz
  rw [qualifiedNames_eq] at hnd
  rw [List.inj_on_of_nodup_map hnd hd he (Option.some.inj h)]

/-! ## Visited names -/

/-- The names of the types that a type leads to along its `chain`, from the first look-up on. -/
def Visits (r : Registry) (x : Resolved) (names : List String) : Prop :=
  ∀ i < names.length, names[i]? = (r.chain x (i + 1)).bind Resolved.qualified?

theorem visits_cons (h : r.next? x = some d.resolved) (hv : r.Visits d.resolved names) :
    r.Visits x (d.qualified :: names) := by
  intro i hi
  rw [chain_of_next? h]
  cases i with
  | zero => rfl
  | succ i =>
    rw [List.getElem?_cons_succ]
    exact hv i (Nat.lt_of_succ_lt_succ hi)

theorem visits_singleton (h : r.next? x = some d.resolved) : r.Visits x [d.qualified] :=
  visits_cons h fun i hi => absurd hi (Nat.not_lt_zero i)

theorem Visits.exists_chain (hv : r.Visits x names) (i : Nat) {name : String}
    (h : names[i]? = some name) : ∃ y, r.chain x (i + 1) = some y ∧ y.qualified? = some name := by
  obtain ⟨hi, -⟩ := List.getElem?_eq_some_iff.mp h
  rw [hv i hi] at h
  exact Option.bind_eq_some_iff.mp h

/-- A name that comes again closes a circle, where `qualifiedNames` are distinct. -/
theorem Visits.exists_chain_of_mem {last : String} (hnd : r.qualifiedNames.Nodup)
    (hv : r.Visits x (names ++ [last])) (hlast : last ∈ names) (k : Nat) :
    ∃ y, r.chain x k = some y := by
  obtain ⟨i, hi, hname⟩ := List.getElem_of_mem hlast
  have hfirst : (names ++ [last])[i]? = some names[i] := by
    rw [List.getElem?_append_left hi, List.getElem?_eq_getElem hi]
  obtain ⟨y, hy, hyname⟩ := hv.exists_chain i hfirst
  obtain ⟨z, hz, hzname⟩ := hv.exists_chain names.length List.getElem?_concat_length
  obtain rfl := eq_of_qualified? hnd hy hz (by rw [hyname, hzname, hname])
  exact exists_chain_of_again hy hz (Nat.succ_lt_succ hi) k

/-! ## Following -/

/-- Follows a type with so many look-ups at most, past names that are seen already. -/
def followWithin (r : Registry) (limit : Nat) (seen : List String) (x : Resolved) :
    Option (Except GenerateError Resolved) :=
  match x.type.kind.referent?, limit with
  | none, _ => some (.ok x)
  | some _, 0 => none
  | some target, limit + 1 =>
    match r.lookup x.space target with
    | .error e => some (.error e)
    | .ok d =>
      if d.qualified ∈ seen then some (.error (.referenceCycle (seen ++ [d.qualified])))
      else r.followWithin limit (seen ++ [d.qualified]) d.resolved

theorem followWithin_of_isReference (hk : x.type.kind.isReference = false) :
    r.followWithin n seen x = some (.ok x) := by
  unfold followWithin
  rw [Kind.referent?_eq_none_iff.mpr hk]

/-- Every look-up but the last comes to a name that is new, so `unseen` look-ups suffice. -/
theorem followWithin_of_reference (hk : x.type.kind.referent? = some target)
    (hn : unseen r.qualifiedNames seen < n) :
    r.followWithin n seen x = some ((r.chase seen x.space target).map Declared.resolved) := by
  fun_induction followWithin r n seen x generalizing target with
  | case1 _ _ _ hx => cases hx.symm.trans hk
  | case2 => exact absurd hn (Nat.not_lt_zero _)
  | case3 _ _ _ _ hx _ hl =>
    cases hx.symm.trans hk
    rw [chase_of_error hl, Except.map]
  | case4 _ _ _ _ hx d hl hs =>
    cases hx.symm.trans hk
    rw [chase_of_mem hl hs, Except.map]
  | case5 _ _ _ limit hx d hl hs ih =>
    cases hx.symm.trans hk
    -- One name fewer is left, which pays for the look-up.
    have hless := unseen_append_lt (qualified_mem_of_lookup hl) hs
    cases hd : d.type.kind.referent? with
    | none =>
      have hend := Kind.referent?_eq_none_iff.mp hd
      rw [followWithin_of_isReference hend, chase_of_lookup hl hs hend, Except.map]
    | some next =>
      rw [chase_of_alias hl hs (Kind.referent?_eq_some_iff.mp hd)]
      exact ih hd (by omega)

theorem followWithin_eq_follow (r : Registry) (space : String) (t : Ty) :
    r.followWithin (r.declarations.length + 1) [] ⟨space, t.name, t⟩ = some (r.follow space t) := by
  cases hk : t.kind.isReference with
  | false => rw [follow_of_isReference hk, followWithin_of_isReference hk]
  | true =>
    obtain ⟨target, htarget⟩ := exists_target hk
    rw [follow_of_reference htarget]
    apply followWithin_of_reference (Kind.referent?_eq_some_iff.mpr htarget)
    calc unseen r.qualifiedNames [] ≤ r.qualifiedNames.length := List.countP_le_length
      _ = r.declarations.length := by rw [qualifiedNames_eq, List.length_map]
      _ < r.declarations.length + 1 := Nat.lt_succ_self _

/-! ## What the result tells -/

/-- What the result of following tells about the chain, past names that are seen already. -/
inductive Tells (r : Registry) (seen : List String) (x : Resolved) : Except GenerateError Resolved → Prop
  | found {n : Nat} {y : Resolved} (h : r.chain x n = some y) (hk : y.type.kind.isReference = false) :
    Tells r seen x (.ok y)
  | dangling {n : Nat} {y : Resolved} {target : String} (h : r.chain x n = some y)
      (hk : y.type.kind = .reference target) (hl : ∀ d, r.lookup y.space target ≠ .ok d) :
    Tells r seen x (.error (.danglingReference y.space target))
  | cycle (names : List String) {last : String} (hv : r.Visits x (names ++ [last]))
      (hnew : (seen ++ names).Nodup) (hlast : last ∈ seen ++ names) :
    Tells r seen x (.error (.referenceCycle (seen ++ (names ++ [last]))))

theorem tells_of_next? (h : r.next? x = some d.resolved)
    (ht : r.Tells (seen ++ [d.qualified]) d.resolved result) : r.Tells seen x result := by
  cases ht with
  | found hy hk => exact .found ((chain_of_next? h).trans hy) hk
  | dangling hy hk hl => exact .dangling ((chain_of_next? h).trans hy) hk hl
  | @cycle names last hv hnew hlast =>
    have happend : ∀ rest, seen ++ [d.qualified] ++ rest = seen ++ (d.qualified :: rest) := by simp
    rw [happend] at hnew hlast ⊢
    exact .cycle (d.qualified :: names) (visits_cons h hv) hnew hlast

theorem eq_danglingReference (hs : space ∈ r.namespaces.map (·.name)) {e : GenerateError}
    (hl : r.lookup space target = .error e) : e = .danglingReference space target := by
  obtain ⟨ns, hns, rfl⟩ := List.mem_map.mp hs
  have hfind := namespace?_eq_some_iff.mpr ⟨hns, rfl⟩
  simp only [lookup, getNamespace, hfind, bind, Except.bind] at hl
  split at hl
  · cases hl
  · exact (Except.error.inj hl).symm

theorem space_mem_of_lookup (h : r.lookup space target = .ok d) : d.space ∈ r.namespaces.map (·.name) := by
  obtain ⟨ns, hns, hname, -⟩ := mem_declarations_iff.mp (mem_declarations_of_lookup h)
  exact List.mem_map.mpr ⟨ns, hns, hname⟩

theorem tells_of_followWithin (hx : x.space ∈ r.namespaces.map (·.name)) (hseen : seen.Nodup)
    (h : r.followWithin n seen x = some result) : r.Tells seen x result := by
  fun_induction followWithin r n seen x with
  | case1 _ _ x hk =>
    cases h
    exact .found (n := 0) rfl (Kind.referent?_eq_none_iff.mp hk)
  | case2 => cases h
  | case3 seen x target _ hk e hl =>
    cases h
    rw [eq_danglingReference hx hl]
    exact .dangling (n := 0) rfl (Kind.referent?_eq_some_iff.mp hk) fun d hd => by cases hl.symm.trans hd
  | case4 seen x target _ hk d hl hs =>
    cases h
    have hnext := next?_of_lookup (Kind.referent?_eq_some_iff.mp hk) hl
    exact .cycle [] (visits_singleton hnext) (by rwa [List.append_nil]) (by rwa [List.append_nil])
  | case5 seen x target _ hk d hl hs ih =>
    have hnew : (seen ++ [d.qualified]).Nodup :=
      List.nodup_append.mpr ⟨hseen, List.nodup_singleton _, by grind⟩
    apply tells_of_next? (next?_of_lookup (Kind.referent?_eq_some_iff.mp hk) hl)
    exact ih (space_mem_of_lookup hl) hnew h

theorem exists_chain_of_tells (ht : r.Tells seen x (.ok y)) :
    ∃ n, r.chain x n = some y ∧ y.type.kind.isReference = false := by
  cases ht with
  | found h hk => exact ⟨_, h, hk⟩

theorem exists_dangling_of_tells (ht : r.Tells seen x (.error (.danglingReference space target))) :
    ∃ n y, r.chain x n = some y ∧ y.space = space ∧ y.type.kind = .reference target ∧
      ∀ d, r.lookup space target ≠ .ok d := by
  cases ht with
  | dangling h hk hl => exact ⟨_, _, h, rfl, hk, hl⟩

theorem exists_names_of_tells {cycle : List String} (ht : r.Tells [] x (.error (.referenceCycle cycle))) :
    ∃ names last, cycle = names ++ [last] ∧ r.Visits x cycle ∧ names.Nodup ∧ last ∈ names := by
  cases ht with
  | cycle names hv hnew hlast => exact ⟨names, _, rfl, hv, hnew, hlast⟩

/-- A chain with an end does not run in a circle, so what `Tells` of it is that end. -/
theorem eq_end_of_tells (hnd : r.qualifiedNames.Nodup) (ht : r.Tells [] x result)
    (h : r.chain x n = some y) (hy : r.next? y = none) :
    y.type.kind.isReference = false ∧ result = .ok y ∨
      ∃ target, y.type.kind = .reference target ∧ result = .error (.danglingReference y.space target) := by
  cases ht with
  | found hz hk =>
    obtain rfl := end_unique h hy hz (next?_of_isReference hk)
    exact .inl ⟨hk, rfl⟩
  | dangling hz hk hl =>
    obtain rfl := end_unique h hy hz (next?_of_dangling hk hl)
    exact .inr ⟨_, hk, rfl⟩
  | cycle names hv _ hlast =>
    -- The chain would go on behind its end.
    obtain ⟨z, hz⟩ := hv.exists_chain_of_mem hnd hlast (n + 1)
    exact absurd (le_of_next?_eq_none h hy hz) (Nat.not_succ_le_self n)

theorem exists_cycle_of_tells (ht : r.Tells [] x result) (h : ∀ n, ∃ y, r.chain x n = some y) :
    ∃ cycle, result = .error (.referenceCycle cycle) := by
  have hend : ∀ {n y}, r.chain x n = some y → r.next? y ≠ none := by
    intro n y hy hnone
    obtain ⟨z, hz⟩ := h (n + 1)
    exact Nat.not_succ_le_self n (le_of_next?_eq_none hy hnone hz)
  cases ht with
  | found hy hk => exact absurd (next?_of_isReference hk) (hend hy)
  | dangling hy hk hl => exact absurd (next?_of_dangling hk hl) (hend hy)
  | cycle => exact ⟨_, rfl⟩

/-- The result tells how the `chain` goes. -/
structure Classifies (r : Registry) (x : Resolved) (result : Except GenerateError Resolved) : Prop where
  found_iff : ∀ y, result = .ok y ↔ ∃ n, r.chain x n = some y ∧ y.type.kind.isReference = false
  dangling_iff : ∀ space target, result = .error (.danglingReference space target) ↔
    ∃ n y, r.chain x n = some y ∧ y.space = space ∧ y.type.kind = .reference target ∧
      ∀ d, r.lookup space target ≠ .ok d
  endless_iff : (∃ cycle, result = .error (.referenceCycle cycle)) ↔ ∀ n, ∃ y, r.chain x n = some y
  /-- A cycle is reported with the names up to the first that comes again. -/
  cycle : ∀ cycle, result = .error (.referenceCycle cycle) → r.Visits x cycle ∧
    ∃ names last, cycle = names ++ [last] ∧ names.Nodup ∧ names.count last = 1

theorem classifies_of_tells (hnd : r.qualifiedNames.Nodup) (ht : r.Tells [] x result) :
    r.Classifies x result where
  found_iff y := by
    refine ⟨fun h => exists_chain_of_tells (h ▸ ht), fun h => ?_⟩
    obtain ⟨n, hy, hk⟩ := h
    rcases eq_end_of_tells hnd ht hy (next?_of_isReference hk) with h | ⟨target, htarget, -⟩
    · exact h.2
    · rw [htarget] at hk
      cases hk
  dangling_iff space target := by
    refine ⟨fun h => exists_dangling_of_tells (h ▸ ht), fun h => ?_⟩
    obtain ⟨n, y, hy, rfl, hk, hl⟩ := h
    rcases eq_end_of_tells hnd ht hy (next?_of_dangling hk hl) with ⟨hk', -⟩ | ⟨target', hk', h⟩
    · rw [hk] at hk'
      cases hk'
    · cases hk.symm.trans hk'
      exact h
  endless_iff := by
    refine ⟨fun h => ?_, exists_cycle_of_tells ht⟩
    obtain ⟨cycle, rfl⟩ := h
    obtain ⟨names, last, rfl, hv, -, hlast⟩ := exists_names_of_tells ht
    exact hv.exists_chain_of_mem hnd hlast
  cycle cycle h := by
    obtain ⟨names, last, rfl, hv, hnew, hlast⟩ := exists_names_of_tells (h ▸ ht)
    exact ⟨hv, names, last, rfl, hnew, List.count_eq_one_of_mem hnew hlast⟩

/-- How a type is followed. -/
structure Follows (r : Registry) (space : String) (t : Ty) : Prop where
  /-- Following takes at most one look-up more than there are types. -/
  halts : r.followWithin (r.declarations.length + 1) [] ⟨space, t.name, t⟩ = some (r.follow space t)
  reached : ∀ y, r.follow space t = .ok y →
    y.type.kind.isReference = false ∧ ∃ n, r.chain ⟨space, t.name, t⟩ n = some y
  classifies : r.qualifiedNames.Nodup → r.Classifies ⟨space, t.name, t⟩ (r.follow space t)

/-- References are followed to the end of their chain, wherever that leads. -/
theorem follows_of_mem (hs : space ∈ r.namespaces.map (·.name)) (t : Ty) : r.Follows space t := by
  have hhalts := followWithin_eq_follow r space t
  have htells := tells_of_followWithin hs List.nodup_nil hhalts
  refine ⟨hhalts, fun y hy => ?_, fun hnd => classifies_of_tells hnd htells⟩
  obtain ⟨n, hn, hk⟩ := exists_chain_of_tells (hy ▸ htells)
  exact ⟨hk, n, hn⟩

end Registry

namespace Signpost

def pointer (name target : String) : Ty := (Ty.ofKind (.reference target)).named name

/-- Two aliases that lead to each other, one that leads elsewhere, and one that leads nowhere. -/
def registry : Registry where
  namespaces := [
    (((Namespace.empty "app").withType (pointer "Here" "lib.There")).withType
      (pointer "Size" "lib.Length")).withType (pointer "Lost" "Gone"),
    ((Namespace.empty "lib").withType (pointer "There" "app.Here")).withType
      ((Ty.ofKind .integer).named "Length")]
  distinct := by decide

def here : Ty := Ty.ofKind (.reference "Here")

def size : Ty := Ty.ofKind (.reference "Size")

def lost : Ty := Ty.ofKind (.reference "Lost")

end Signpost

open Signpost in
theorem Registry.follows_of_mem_signpost : "app" ∈ registry.namespaces.map (·.name) ∧
    registry.qualifiedNames.Nodup ∧
    registry.follow "app" here = .error (.referenceCycle ["app.Here", "lib.There", "app.Here"]) ∧
    (∀ n, ∃ y, registry.chain ⟨"app", none, here⟩ n = some y) ∧
    registry.follow "app" size = .ok ⟨"lib", some "Length", (Ty.ofKind .integer).named "Length"⟩ ∧
    registry.follow "app" lost = .error (.danglingReference "app" "Gone") := by
  have happ : "app" ∈ registry.namespaces.map (·.name) := .head _
  have hnd : registry.qualifiedNames.Nodup := by decide
  have hhere := follows_of_mem happ here
  have hcycle : registry.follow "app" here =
      .error (.referenceCycle ["app.Here", "lib.There", "app.Here"]) :=
    Option.some.inj (hhere.halts.symm.trans rfl)
  exact ⟨happ, hnd, hcycle, (hhere.classifies hnd).endless_iff.mp ⟨_, hcycle⟩,
    Option.some.inj ((follows_of_mem happ size).halts.symm.trans rfl),
    Option.some.inj ((follows_of_mem happ lost).halts.symm.trans rfl)⟩

end Interchange
