import Interchange.Plan.Matching
import Mathlib.Data.List.Chain
import Mathlib.Data.List.Perm.Subperm
import Mathlib.Logic.Relation

/-! # The checks for cycles are exact

A search that comes back to a node has walked around a cycle of the graph (`isCycle_of_settle`), and
the bound on its steps never stops it, since the nodes on its way are distinct (`Way`); a search
that comes back to none has ranked the nodes. So a table is refused if and only if a type leads to
itself through required properties (`Requires`), or through variants (`MayBe`), and the refusal
shows how (`Exact`).
-/

namespace Interchange

open Relation (TransGen ReflTransGen)

/-! ## Searching a graph -/

namespace Graph

variable {edge : Nat → Nat → Prop} {edges : Nat → List Nat} {path cycle : List Nat} {n a b : Nat}

/-- A way along edges that ends where it starts. -/
structure IsCycle (edge : Nat → Nat → Prop) (cycle : List Nat) : Prop where
  two_le : 2 ≤ cycle.length
  closed : cycle.head? = cycle.getLast?
  chain : cycle.IsChain edge

theorem IsCycle.exists_transGen (h : IsCycle edge cycle) : ∃ a, TransGen edge a a := by
  obtain ⟨two_le, closed, chain⟩ := h
  cases cycle with
  | nil => simp at two_le
  | cons a rest =>
    cases rest with
    | nil => simp at two_le
    | cons b rest =>
      obtain ⟨hab, hrest⟩ := List.isChain_cons_cons.mp chain
      have hlast : (b :: rest).getLast (List.cons_ne_nil _ _) = a := by
        simpa [List.getLast?_eq_some_getLast, eq_comm] using closed
      exact ⟨a, .head' hab (List.relationReflTransGen_of_exists_isChain_cons rest hrest hlast)⟩

/-- Every node of a cycle has an edge: the last one is the first. -/
theorem IsCycle.exists_edge (h : IsCycle edge cycle) (ha : a ∈ cycle) : ∃ b, edge a b := by
  obtain ⟨two_le, closed, chain⟩ := h
  obtain ⟨i, hi, rfl⟩ := List.getElem_of_mem ha
  by_cases hlast : i + 1 < cycle.length
  · exact ⟨_, List.isChain_iff_getElem.mp chain i hlast⟩
  · have hfirst : cycle[i] = cycle[0] := by
      have hi' : i = cycle.length - 1 := by omega
      subst hi'
      rw [List.head?_eq_getElem?, List.getLast?_eq_getElem?, List.getElem?_eq_getElem (by omega),
        List.getElem?_eq_getElem (by omega)] at closed
      exact (Option.some.inj closed).symm
    rw [hfirst]
    exact ⟨_, List.isChain_iff_getElem.mp chain 0 (by omega)⟩

theorem not_transGen_of_ranked (h : Ranked edges) (a : Nat) : ¬TransGen (fun a b => b ∈ edges a) a a := by
  obtain ⟨rank, hrank⟩ := h
  have hlt : ∀ b, TransGen (fun a b => b ∈ edges a) a b → rank b < rank a := by
    intro b hb
    induction hb with
    | single hb => exact hrank a _ hb
    | tail _ hb ih => exact Nat.lt_trans (hrank _ _ hb) ih
  exact fun ha => Nat.lt_irrefl _ (hlt a ha)

/-- The way of a search to a node, last first: nodes that differ, each with an edge to the one it
was left for. -/
structure Way (edges : Nat → List Nat) (path : List Nat) (a : Nat) : Prop where
  chain : (a :: path).IsChain fun b c => b ∈ edges c
  nodup : path.Nodup

theorem Way.cons (h : Way edges path a) (ha : a ∉ path) (hb : b ∈ edges a) : Way edges (a :: path) b :=
  ⟨.cons_cons hb h.chain, List.nodup_cons.mpr ⟨ha, h.nodup⟩⟩

/-- A node that the search has left has edges. -/
theorem Way.edges_ne_nil (h : Way edges path a) : ∀ c ∈ path, edges c ≠ [] := by
  have hchain := h.chain
  clear h
  induction path generalizing a with
  | nil => simp
  | cons b path ih =>
    obtain ⟨hab, hrest⟩ := List.isChain_cons_cons.mp hchain
    intro c hc
    rcases List.mem_cons.mp hc with rfl | hc
    · exact List.ne_nil_of_mem hab
    · exact ih hrest c hc

/-- So the way is no longer than there are nodes with edges, and `settle` does not run out of steps.
-/
theorem Way.length_le (h : Way edges path a) (hn : ∀ a, n ≤ a → edges a = []) : path.length ≤ n := by
  have hsub : path ⊆ List.range n := by
    intro c hc
    rw [List.mem_range]
    by_contra hle
    exact h.edges_ne_nil c hc (hn c (Nat.le_of_not_lt hle))
  simpa using (h.nodup.subperm hsub).length_le

theorem Way.isCycle_closeCycle (h : Way edges path a) (ha : a ∈ path) :
    IsCycle (fun a b => b ∈ edges a) (closeCycle path a) := by
  -- The cycle is the end of the way, turned around.
  have hrev : closeCycle path a = (a :: path.takeWhile (· ≠ a) ++ [a]).reverse := by simp [closeCycle]
  have hpath : ∃ rest, path = path.takeWhile (· ≠ a) ++ a :: rest := by
    clear h hrev
    induction path with
    | nil => simp at ha
    | cons b path ih =>
      by_cases hba : b = a
      · exact ⟨path, by simp [hba]⟩
      · obtain ⟨rest, hrest⟩ := ih ((List.mem_cons.mp ha).resolve_left (Ne.symm hba))
        refine ⟨rest, ?_⟩
        rw [List.takeWhile_cons_of_pos (by simpa using hba), List.cons_append, ← hrest]
  refine ⟨by simp [closeCycle], by rw [closeCycle, List.getLast?_concat]; rfl, ?_⟩
  obtain ⟨rest, hrest⟩ := hpath
  have hchain : (a :: path.takeWhile (· ≠ a) ++ [a] ++ rest).IsChain fun b c => b ∈ edges c := by
    have := h.chain
    rw [hrest] at this
    simpa using this
  rw [hrev, List.isChain_reverse]
  exact hchain.left_of_append

theorem exists_of_foldlM_eq_error {f : List Nat → Nat → Except (List Nat) (List Nat)} {l s : List Nat}
    (h : l.foldlM f s = .error cycle) : ∃ s', ∃ a ∈ l, f s' a = .error cycle := by
  induction l generalizing s with
  | nil => cases h
  | cons a l ih =>
    rw [List.foldlM_cons] at h
    cases hfa : f s a with
    | error e =>
      rw [hfa] at h
      cases h
      exact ⟨s, a, List.mem_cons_self, hfa⟩
    | ok s₁ =>
      rw [hfa] at h
      obtain ⟨s', b, hb, hfb⟩ := ih h
      exact ⟨s', b, List.mem_cons_of_mem _ hb, hfb⟩

/-- A search by `settle` that fails has found a cycle: its bound allows for a way through all nodes.
-/
theorem isCycle_of_settle (hn : ∀ a, n ≤ a → edges a = []) {m : Nat} {settled : List Nat}
    (hway : Way edges path a) (hm : m + path.length = n + 1)
    (h : settle edges m path settled a = .error cycle) : IsCycle (fun a b => b ∈ edges a) cycle := by
  induction m generalizing path settled a with
  | zero =>
    have := hway.length_le hn
    omega
  | succ m ih =>
    rw [settle] at h
    split at h
    · cases h
    · split at h
      · rename_i ha
        cases h
        exact hway.isCycle_closeCycle ha
      · rename_i ha
        cases hf : (edges a).foldlM (settle edges m (a :: path)) settled with
        | ok s => simp [hf, Except.map] at h
        | error e =>
          simp only [hf, Except.map, Except.error.injEq] at h
          subst h
          obtain ⟨s', b, hb, hfb⟩ := exists_of_foldlM_eq_error hf
          exact ih (hway.cons ha hb) (by simp only [List.length_cons]; omega) hfb

theorem isCycle_of_findCycle (hn : ∀ a, n ≤ a → edges a = []) (h : findCycle edges n = some cycle) :
    IsCycle (fun a b => b ∈ edges a) cycle := by
  unfold findCycle at h
  split at h
  · rename_i e he
    cases h
    obtain ⟨s, a, -, hf⟩ := exists_of_foldlM_eq_error he
    exact isCycle_of_settle hn ⟨.singleton a, List.nodup_nil⟩ rfl hf
  · cases h

/-- The search `findCycle` finds a cycle if and only if there is one. -/
theorem findCycle_eq_none_iff (hn : ∀ a, n ≤ a → edges a = []) :
    findCycle edges n = none ↔ ∀ a, ¬TransGen (fun a b => b ∈ edges a) a a := by
  refine ⟨fun h => not_transGen_of_ranked (ranked_of_findCycle hn h), fun h => ?_⟩
  cases hf : findCycle edges n with
  | none => rfl
  | some cycle =>
    obtain ⟨a, ha⟩ := (isCycle_of_findCycle hn hf).exists_transGen
    exact absurd ha (h a)

end Graph

/-! ## Types that lead to types -/

namespace Plan

/-- An instance of the plan holds one of the entry: it is named there, or a required property holds
one. The relation of `requiredTargets`. -/
inductive Requires : Plan → Nat → Prop
  | named {id : Nat} : Requires (.named id) id
  | property {o : ObjectPlan} {q : PropertyPlan} {id : Nat} (hq : q ∈ o.properties)
      (hr : q.optional = false) (h : Requires q.plan id) : Requires (.inline (.object o)) id

/-- A value of the plan may be one of the entry: it is named there, or a variant may be one. The
relation of `variantTargets`. -/
inductive MayBe : Plan → Nat → Prop
  | named {id : Nat} : MayBe (.named id) id
  | variant {c : ChoicesPlan} {w : VariantPlan} {id : Nat} (hw : w ∈ c.variants)
      (h : MayBe w.plan id) : MayBe (.inline (.choices c)) id

theorem sizeOf_property_lt {o : ObjectPlan} {q : PropertyPlan} (hq : q ∈ o.properties) :
    sizeOf q.plan < sizeOf (Plan.inline (.object o)) := by
  have := List.sizeOf_lt_of_mem hq
  obtain ⟨name, properties, additional⟩ := o
  obtain ⟨qname, optional, plan⟩ := q
  simp only [PropertyOf.mk.sizeOf_spec] at this
  simp only [Plan.inline.sizeOf_spec, ShapeOf.object.sizeOf_spec, ObjectOf.mk.sizeOf_spec]
  omega

theorem mem_propertiesRequired_iff {ps : List PropertyPlan} {id : Nat} :
    id ∈ propertiesRequired ps ↔ ∃ q ∈ ps, q.optional = false ∧ id ∈ q.plan.requiredTargets := by
  induction ps with
  | nil => simp [propertiesRequired]
  | cons q ps ih =>
    obtain ⟨name, optional, plan⟩ := q
    rw [propertiesRequired, List.mem_append, ih, List.exists_mem_cons_iff]
    cases optional <;> simp

theorem mem_variantsTargets_iff {ws : List VariantPlan} {id : Nat} :
    id ∈ variantsTargets ws ↔ ∃ w ∈ ws, id ∈ w.plan.variantTargets := by
  induction ws with
  | nil => simp [variantsTargets]
  | cons w ws ih => simp [variantsTargets, ih]

theorem requires_of_mem {p : Plan} {id : Nat} (h : id ∈ p.requiredTargets) : p.Requires id := by
  cases hp : p with
  | named id' =>
    rw [hp] at h
    cases List.mem_singleton.mp h
    exact .named
  | inline s =>
    rw [hp, requiredTargets] at h
    cases s with
    | object o =>
      obtain ⟨q, hq, hr, hid⟩ := mem_propertiesRequired_iff.mp h
      exact .property hq hr (requires_of_mem hid)
    | boolean | integer | int64 | double | string | binary | any | function | enumeration | array |
        choices =>
      cases h
termination_by sizeOf p
decreasing_by
  rw [hp]
  exact sizeOf_property_lt hq

theorem mem_requiredTargets_iff {p : Plan} {id : Nat} : id ∈ p.requiredTargets ↔ p.Requires id := by
  refine ⟨requires_of_mem, fun h => ?_⟩
  induction h with
  | named => exact List.mem_singleton_self _
  | property hq hr _ ih => exact mem_propertiesRequired_iff.mpr ⟨_, hq, hr, ih⟩

theorem mayBe_of_mem {p : Plan} {id : Nat} (h : id ∈ p.variantTargets) : p.MayBe id := by
  cases hp : p with
  | named id' =>
    rw [hp] at h
    cases List.mem_singleton.mp h
    exact .named
  | inline s =>
    rw [hp, variantTargets] at h
    cases s with
    | choices c =>
      obtain ⟨w, hw, hid⟩ := mem_variantsTargets_iff.mp h
      exact .variant hw (mayBe_of_mem hid)
    | boolean | integer | int64 | double | string | binary | any | function | enumeration | array |
        object =>
      cases h
termination_by sizeOf p
decreasing_by
  have := Table.sizeOf_variant_lt hw
  rw [hp, Plan.inline.sizeOf_spec, ShapeOf.choices.sizeOf_spec]
  omega

theorem mem_variantTargets_iff {p : Plan} {id : Nat} : id ∈ p.variantTargets ↔ p.MayBe id := by
  refine ⟨mayBe_of_mem, fun h => ?_⟩
  induction h with
  | named => exact List.mem_singleton_self _
  | variant hw _ ih => exact mem_variantsTargets_iff.mpr ⟨_, hw, ih⟩

end Plan

/-! ## Checking a table -/

namespace Table

open Interchange.Graph Plan

variable {entries : List Entry} {edge : Nat → Nat → Prop} {edges : Nat → List Nat} {a b : Nat}

/-- An entry leads to those that its plan leads to. -/
def Edge (leads : Plan → Nat → Prop) (entries : List Entry) (a b : Nat) : Prop :=
  ∃ e, entries[a]? = some e ∧ leads e.plan b

theorem Edge.lt_length {leads : Plan → Nat → Prop} (h : Edge leads entries a b) : a < entries.length := by
  obtain ⟨e, he, -⟩ := h
  exact (List.getElem?_eq_some_iff.mp he).1

/-- An entry that is missing leads nowhere, so `planAt` may stand for the entry. -/
theorem edge_iff_planAt {leads : Plan → Nat → Prop} (hany : ∀ id, ¬leads (.inline .any) id) :
    Edge leads entries a b ↔ leads (planAt entries a) b := by
  unfold Edge planAt
  cases entries[a]? with
  | none => exact ⟨fun h => by simp at h, fun h => absurd h (hany b)⟩
  | some e => simp

theorem mem_requiredEdges_iff : b ∈ requiredEdges entries a ↔ Edge Requires entries a b := by
  have hany : ∀ id, ¬Requires (.inline .any) id := by
    intro id h
    cases h
  rw [edge_iff_planAt hany, requiredEdges, mem_requiredTargets_iff]

theorem mem_variantEdges_iff : b ∈ variantEdges entries a ↔ Edge MayBe entries a b := by
  have hany : ∀ id, ¬MayBe (.inline .any) id := by
    intro id h
    cases h
  rw [edge_iff_planAt hany, variantEdges, mem_variantTargets_iff]

/-- What an exact check for cycles answers: it succeeds if and only if there is none, and otherwise
reports the names along one. -/
structure Exact (entries : List Entry) (edge : Nat → Nat → Prop) (report : List String → GenerateError)
    (answer : Except GenerateError Unit) : Prop where
  ok_iff : answer = .ok () ↔ ∀ a, ¬TransGen edge a a
  reports : ∀ e, answer = .error e → ∃ cycle names, IsCycle edge cycle ∧ e = report names ∧
    cycle.map (fun id => entries[id]?.map (·.name)) = names.map some

/-- Every node of a cycle has an edge, so it is an entry with a name. -/
theorem map_name_eq_of_isCycle (hlt : ∀ a b, edge a b → a < entries.length) {cycle : List Nat}
    (h : IsCycle edge cycle) :
    cycle.map (fun id => entries[id]?.map (·.name)) = (cycle.map (nameAt entries)).map some := by
  rw [List.map_map]
  apply List.map_congr_left
  intro id hid
  have hid : id < entries.length := by
    obtain ⟨b, hb⟩ := h.exists_edge hid
    exact hlt id b hb
  simp [nameAt, List.getElem?_eq_getElem hid]

theorem exact_of_findCycle (hedge : ∀ a b, b ∈ edges a ↔ edge a b)
    (hlt : ∀ a b, edge a b → a < entries.length) {report : List String → GenerateError}
    {answer : Except GenerateError Unit}
    (hnone : findCycle edges entries.length = none → answer = .ok ())
    (hsome : ∀ cycle, findCycle edges entries.length = some cycle →
      answer = .error (report (cycle.map (nameAt entries)))) : Exact entries edge report answer := by
  have hrel : (fun a b => b ∈ edges a) = edge := by
    funext a b
    exact propext (hedge a b)
  have hn : ∀ a, entries.length ≤ a → edges a = [] := by
    intro a ha
    apply List.eq_nil_iff_forall_not_mem.mpr
    intro b hb
    exact absurd (hlt a b ((hedge a b).mp hb)) (Nat.not_lt.mpr ha)
  refine ⟨?_, fun e he => ?_⟩
  · rw [← hrel, ← findCycle_eq_none_iff hn]
    refine ⟨fun hok => ?_, hnone⟩
    cases hf : findCycle edges entries.length with
    | none => rfl
    | some cycle =>
      rw [hsome cycle hf] at hok
      cases hok
  · cases hf : findCycle edges entries.length with
    | none =>
      rw [hnone hf] at he
      cases he
    | some cycle =>
      have hcycle : IsCycle edge cycle := hrel ▸ isCycle_of_findCycle hn hf
      rw [hsome cycle hf] at he
      cases he
      exact ⟨cycle, _, hcycle, rfl, map_name_eq_of_isCycle hlt hcycle⟩

/-- A list of entries passes the checks if and only if no type contains itself through required
properties, and none is its own variant; a failed check shows a way from a type back to itself. -/
theorem checks_exact (entries : List Entry) :
    Exact entries (Edge Requires entries) .recursiveRequired (checkRequired entries) ∧
      Exact entries (Edge MayBe entries) .recursiveChoices (checkVariants entries) := by
  refine ⟨exact_of_findCycle (fun _ _ => mem_requiredEdges_iff) (fun _ _ => Edge.lt_length) ?_ ?_,
    exact_of_findCycle (fun _ _ => mem_variantEdges_iff) (fun _ _ => Edge.lt_length) ?_ ?_⟩
  · intro h
    rw [checkRequired, h]
  · intro cycle h
    rw [checkRequired, h]
  · intro h
    rw [checkVariants, h]
  · intro cycle h
    rw [checkVariants, h]

example : checkRequired [⟨"Page", .named 1⟩,
    ⟨"Link", .inline (.object ⟨"Link", [⟨"from", true, .named 1⟩, ⟨"to", false, .named 0⟩], none⟩)⟩] =
      .error (.recursiveRequired ["Page", "Link", "Page"]) := rfl

end Table

end Interchange
