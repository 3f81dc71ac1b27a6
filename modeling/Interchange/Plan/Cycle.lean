/-! # Searching a finite graph for cycles

The search `findCycle` goes depth first (`settle`). A node is settled once everything it leads to
is; nodes are entered in the list of settled ones in that order, so the list ranks them: edges lead
down (`Settled`, `height`). If the search comes back to a node whose own search is not over, it has
found a cycle. A search without success gives a rank (`ranked_of_findCycle`).
-/

namespace Interchange.Graph

variable (edges : Nat → List Nat)

/-- Every edge leads to a node of lower rank. -/
def Ranked : Prop := ∃ rank : Nat → Nat, ∀ a, ∀ b ∈ edges a, rank b < rank a

/-- The way from `a`, which is on the path, back to itself. The path comes last first. -/
def closeCycle (path : List Nat) (a : Nat) : List Nat :=
  a :: (path.takeWhile (· ≠ a)).reverse ++ [a]

/-- Settles a node, or finds a cycle. `path` is the way to the node, last first. The first argument
bounds the length of further ways. -/
def settle : Nat → List Nat → List Nat → Nat → Except (List Nat) (List Nat)
  | 0, path, _, a => .error (closeCycle path a)
  | n + 1, path, settled, a =>
    if a ∈ settled then .ok settled
    else if a ∈ path then .error (closeCycle path a)
    else (List.foldlM (settle n (a :: path)) settled (edges a)).map (a :: ·)

/-- A cycle in the graph with the nodes `0, …, n - 1`. -/
def findCycle (n : Nat) : Option (List Nat) :=
  match (List.range n).foldlM (settle edges (n + 1) []) [] with
  | .error cycle => some cycle
  | .ok _ => none

/-! ## A search without success ranks the nodes -/

/-- Each node leads to nodes behind it only. What `settle` keeps of the list of settled nodes. -/
def Settled : List Nat → Prop
  | [] => True
  | a :: rest => (∀ b ∈ edges a, b ∈ rest) ∧ Settled rest

/-- How many nodes stand at or behind the last occurrence of `a`. -/
def height : List Nat → Nat → Nat
  | [], _ => 0
  | b :: rest, a => if a ∈ rest then height rest a else if a = b then rest.length + 1 else 0

variable {edges}

theorem height_le (l : List Nat) (a : Nat) : height l a ≤ l.length := by
  induction l with
  | nil => simp [height]
  | cons b rest ih =>
    simp only [height, List.length_cons]
    split
    · omega
    · split <;> omega

theorem height_lt_of_settled {l : List Nat} (h : Settled edges l) {a b : Nat} (ha : a ∈ l)
    (hb : b ∈ edges a) : height l b < height l a := by
  induction l with
  | nil => simp at ha
  | cons c rest ih =>
    simp only [height]
    by_cases har : a ∈ rest
    · have hbr : b ∈ rest := by
        have : ∀ l, Settled edges l → a ∈ l → b ∈ l := by
          intro l hl hal
          induction l with
          | nil => simp at hal
          | cons d l ihl =>
            rcases List.mem_cons.1 hal with rfl | hal
            · exact List.mem_cons_of_mem _ (hl.1 b hb)
            · exact List.mem_cons_of_mem _ (ihl hl.2 hal)
        exact this rest h.2 har
      simpa [har, hbr] using ih h.2 har
    · have hac : a = c := (List.mem_cons.1 ha).resolve_right har
      subst hac
      have hbr := h.1 b hb
      have := height_le rest b
      simp only [hbr, har, if_true, if_false]
      omega

/-- What a search that goes on has achieved: the list is still `Settled` and has only grown. -/
structure Progress (edges : Nat → List Nat) (before after : List Nat) : Prop where
  settled : Settled edges after
  keeps : ∀ a ∈ before, a ∈ after

theorem progress_foldlM {f : List Nat → Nat → Except (List Nat) (List Nat)}
    (hf : ∀ s a s', Settled edges s → f s a = .ok s' → Progress edges s s' ∧ a ∈ s')
    {l s s' : List Nat} (hs : Settled edges s) (h : l.foldlM f s = .ok s') :
    Progress edges s s' ∧ ∀ a ∈ l, a ∈ s' := by
  induction l generalizing s with
  | nil =>
    simp only [List.foldlM_nil, pure, Except.pure, Except.ok.injEq] at h
    subst h
    exact ⟨⟨hs, fun _ h => h⟩, by simp⟩
  | cons a l ih =>
    simp only [List.foldlM_cons, bind, Except.bind] at h
    cases hfa : f s a with
    | error e => simp [hfa] at h
    | ok s₁ =>
      simp only [hfa] at h
      obtain ⟨p₁, ha⟩ := hf s a s₁ hs hfa
      obtain ⟨p₂, hl⟩ := ih p₁.settled h
      refine ⟨⟨p₂.settled, fun b hb => p₂.keeps b (p₁.keeps b hb)⟩, fun b hb => ?_⟩
      rcases List.mem_cons.1 hb with rfl | hb
      · exact p₂.keeps _ ha
      · exact hl b hb

theorem progress_settle (n : Nat) (path s : List Nat) (a : Nat) (s' : List Nat)
    (hs : Settled edges s) (h : settle edges n path s a = .ok s') :
    Progress edges s s' ∧ a ∈ s' := by
  induction n generalizing path s a s' with
  | zero => simp [settle] at h
  | succ n ih =>
    simp only [settle] at h
    split at h
    · rename_i ha
      cases h
      exact ⟨⟨hs, fun _ h => h⟩, ha⟩
    · split at h
      · cases h
      · cases hf : (edges a).foldlM (settle edges n (a :: path)) s with
        | error e => simp [hf, Except.map] at h
        | ok s₁ =>
          simp only [hf, Except.map, Except.ok.injEq] at h
          subst h
          obtain ⟨p, he⟩ := progress_foldlM (fun s a s' => ih (_ :: path) s a s') hs hf
          exact ⟨⟨⟨he, p.settled⟩, fun b hb => List.mem_cons_of_mem _ (p.keeps b hb)⟩, by simp⟩

/-- A finite graph in which no cycle is found is ranked. -/
theorem ranked_of_findCycle {n : Nat} (hn : ∀ a, n ≤ a → edges a = [])
    (h : findCycle edges n = none) : Ranked edges := by
  unfold findCycle at h
  split at h
  · cases h
  · rename_i s hs
    obtain ⟨p, hmem⟩ := progress_foldlM (progress_settle (n + 1) []) (s := []) trivial hs
    refine ⟨height s, fun a b hb => height_lt_of_settled p.settled (hmem a ?_) hb⟩
    by_cases ha : a < n
    · simpa using ha
    · simp [hn a (Nat.le_of_not_lt ha)] at hb

end Interchange.Graph
