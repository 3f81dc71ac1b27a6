import Interchange.Document.Reader
import Interchange.Proofs.Scope
import Interchange.Proofs.Suffix

/-! # What readers give

A reader that succeeds has met no place at which the text breaks off, and what it gives has the
properties that its parts and its fields were read with (`Reader.Gives`). Each way to put readers
together keeps this: `Gives.list`, `Gives.mapping`, `gives_record`.
-/

namespace Interchange

open Codec (bind_eq_ok_iff)

variable {α β σ : Type}

theorem map_eq_ok_iff {ε : Type} {x : Except ε α} {f : α → β} {b : β} :
    x.map f = .ok b ↔ ∃ a, x = .ok a ∧ f a = b := by
  cases x <;> simp [Except.map]

/-! ## Complete outlines -/

namespace Json

/-- The text breaks off between items or members. An array or object whose ending `isStopped` is
`Faulty`. -/
def Ending.isStopped : Ending → Bool
  | .stopped _ _ => true
  | _ => false

namespace Outline

theorem not_faulty_array {xs : List Outline} {ending : Ending} (he : ending.isStopped = false)
    (hx : ∀ x ∈ xs, ¬Faulty x) : ¬Faulty (.array xs ending) := by
  intro h
  cases h with
  | items => cases he
  | @item before x h => exact hx x (by simp) h

theorem not_faulty_object {ms : List (Except SyntaxError String × Outline)} {ending : Ending}
    (he : ending.isStopped = false) (hm : ∀ m ∈ ms, ¬Faulty m.2) : ¬Faulty (.object ms ending) := by
  intro h
  cases h with
  | members => cases he
  | @member before k x h => exact hm (k, x) (by simp) h

theorem skipItems_concat (xs : List Outline) (x : Outline) : skipItems (xs ++ [x]) = skipError? x := by
  induction xs with
  | nil => rw [List.nil_append, skipItems]
  | cons y ys ih =>
    cases ys with
    | nil => rw [List.cons_append, List.nil_append, skipItems, skipItems]
    | cons z zs =>
      rw [List.cons_append, List.cons_append, skipItems]
      exact ih

theorem skipMembers_concat (ms : List (Except SyntaxError String × Outline))
    (m : Except SyntaxError String × Outline) : skipMembers (ms ++ [m]) = skipError? m.2 := by
  induction ms with
  | nil => rw [List.nil_append, skipMembers]
  | cons y ys ih =>
    cases ys with
    | nil => rw [List.cons_append, List.nil_append, skipMembers, skipMembers]
    | cons z zs =>
      rw [List.cons_append, List.cons_append, skipMembers]
      exact ih

/-- One who skips a value notices that the text breaks off in it, so passing over a field loses
nothing. -/
theorem Faulty.isSome_skipError? {x : Outline} (h : Faulty x) : x.skipError?.isSome = true := by
  induction h with
  | broken => rw [skipError?, Option.isSome_some]
  | items => rw [skipError?, skipEnding, Option.isSome_some]
  | members => rw [skipError?, skipEnding, Option.isSome_some]
  | item before h ih => rw [skipError?, skipEnding, skipItems_concat, ih]
  | member before k h ih => rw [skipError?, skipEnding, skipMembers_concat, ih]

end Outline

end Json

namespace Document

open Json (SyntaxError Token Ending Expecting Outline)

/-! ## Places -/

namespace Place

variable {p : Place} {a : α}

theorem run_eq_ok_iff {r : Except Cause α} : p.run r = .ok a ↔ r = .ok a := by
  cases r <;> simp [run, fail]

theorem take_eq_ok_iff {r : Except SyntaxError α} : p.take r = .ok a ↔ r = .ok a := by
  cases r <;> simp [take, fail]

theorem isStopped_of_endItems {ending : Ending} {u : Unit} (h : p.endItems ending = .ok u) :
    ending.isStopped = false := by
  cases ending with
  | closed | cut => rfl
  | stopped => cases h

theorem isStopped_of_endMembers {check : String → Except Cause Unit} {ending : Ending} {u : Unit}
    (h : p.endMembers check ending = .ok u) : ending.isStopped = false := by
  unfold endMembers at h
  split at h
  · rfl
  · rfl
  · obtain ⟨k, -, h⟩ := bind_eq_ok_iff.mp h
    obtain ⟨_, -, h⟩ := bind_eq_ok_iff.mp h
    cases h
  · cases h

mutual

theorem not_faulty_of_json {p : Place} {x : Outline} {j : Json} (h : p.json x = .ok j) : ¬x.Faulty := by
  cases x with
  | null | bool | number | string =>
    intro hf
    cases hf
  | broken => cases h
  | array xs ending =>
    rw [json] at h
    obtain ⟨p', -, h⟩ := bind_eq_ok_iff.mp h
    obtain ⟨js, hjs, h⟩ := bind_eq_ok_iff.mp h
    obtain ⟨_, hend, -⟩ := bind_eq_ok_iff.mp h
    exact Outline.not_faulty_array (isStopped_of_endItems hend) (not_faulty_of_jsonItems hjs)
  | object ms ending =>
    rw [json] at h
    obtain ⟨p', -, h⟩ := bind_eq_ok_iff.mp h
    obtain ⟨js, hjs, h⟩ := bind_eq_ok_iff.mp h
    obtain ⟨_, hend, -⟩ := bind_eq_ok_iff.mp h
    exact Outline.not_faulty_object (isStopped_of_endMembers hend) (not_faulty_of_jsonMembers hjs)

theorem not_faulty_of_jsonItems {p : Place} {i : Nat} {xs : List Outline} {js : List Json}
    (h : p.jsonItems i xs = .ok js) : ∀ x ∈ xs, ¬x.Faulty := by
  cases xs with
  | nil => exact List.forall_mem_nil _
  | cons x xs =>
    rw [jsonItems] at h
    obtain ⟨j, hj, h⟩ := bind_eq_ok_iff.mp h
    obtain ⟨js', hjs, -⟩ := bind_eq_ok_iff.mp h
    exact List.forall_mem_cons.mpr ⟨not_faulty_of_json hj, not_faulty_of_jsonItems hjs⟩

theorem not_faulty_of_jsonMembers {p : Place} {ms : List (Except SyntaxError String × Outline)}
    {js : List (String × Json)} (h : p.jsonMembers ms = .ok js) : ∀ m ∈ ms, ¬m.2.Faulty := by
  cases ms with
  | nil => exact List.forall_mem_nil _
  | cons m ms =>
    obtain ⟨k, x⟩ := m
    rw [jsonMembers] at h
    obtain ⟨k', -, h⟩ := bind_eq_ok_iff.mp h
    obtain ⟨j, hj, h⟩ := bind_eq_ok_iff.mp h
    obtain ⟨js', hjs, -⟩ := bind_eq_ok_iff.mp h
    exact List.forall_mem_cons.mpr ⟨not_faulty_of_json hj, not_faulty_of_jsonMembers hjs⟩

end

end Place

/-! ## Readers -/

namespace Reader

/-- What a reader gives stands in a text that does not break off there (`Faulty`), and has the
property `P`. -/
def Gives (read : Reader α) (P : α → Prop) : Prop :=
  ∀ p x a, read p x = .ok a → ¬x.Faulty ∧ P a

variable {P : α → Prop} {read : Reader α}

theorem Gives.map {f : α → β} {R : β → Prop} (h : Gives read P) (hf : ∀ a, P a → R (f a)) :
    Gives (fun p x => (read p x).map f) R := by
  intro p x b hb
  obtain ⟨a, ha, rfl⟩ := map_eq_ok_iff.mp hb
  exact ⟨(h p x a ha).1, hf a (h p x a ha).2⟩

theorem gives_json : Gives Place.json fun _ => True :=
  fun _ _ _ h => ⟨Place.not_faulty_of_json h, trivial⟩

theorem gives_skip : Gives skip fun _ => True := by
  intro p x u h
  refine ⟨fun hf => ?_, trivial⟩
  obtain ⟨e, he⟩ := Option.isSome_iff_exists.mp hf.isSome_skipError?
  rw [skip, he] at h
  cases h

/-- A glance is enough where arrays and objects are refused. -/
theorem gives_glance {look : Found → Except Cause α} (hs : ∀ a, look .sequence ≠ .ok a)
    (hm : ∀ a, look .map ≠ .ok a) : Gives (glance look) fun _ => True := by
  intro p x a ha
  obtain ⟨found, hfound, ha⟩ := bind_eq_ok_iff.mp ha
  rw [Place.take_eq_ok_iff] at hfound
  rw [Place.run_eq_ok_iff] at ha
  refine ⟨fun hf => ?_, trivial⟩
  cases hf with
  | broken => cases hfound
  | items | item =>
    cases hfound
    exact hs a ha
  | members | member =>
    cases hfound
    exact hm a ha

theorem mismatch_ne_ok (expected : String) (p : Place) (x : Outline) (a : α) :
    mismatch expected p x ≠ .ok a := by
  intro h
  obtain ⟨found, -, h⟩ := bind_eq_ok_iff.mp h
  rw [Place.run_eq_ok_iff] at h
  cases h

theorem Gives.optional (h : Gives read P) : Gives (optional read) fun o => ∀ a, o = some a → P a := by
  intro p x o ho
  unfold Reader.optional at ho
  split at ho
  · cases ho
    exact ⟨nofun, nofun⟩
  · obtain ⟨a, ha, rfl⟩ := map_eq_ok_iff.mp ho
    refine ⟨(h p _ a ha).1, ?_⟩
    rintro _ ⟨⟩
    exact (h p _ a ha).2

/-! ### Lists and mappings -/

theorem Gives.items (h : Gives read P) {p : Place} {i : Nat} {xs : List Outline} {as : List α}
    (has : items read p i xs = .ok as) : (∀ x ∈ xs, ¬x.Faulty) ∧ ∀ a ∈ as, P a := by
  induction xs generalizing i as with
  | nil =>
    cases has
    exact ⟨List.forall_mem_nil _, List.forall_mem_nil _⟩
  | cons x xs ih =>
    rw [Reader.items] at has
    obtain ⟨a, ha, has⟩ := bind_eq_ok_iff.mp has
    obtain ⟨as', has', hcons⟩ := bind_eq_ok_iff.mp has
    cases hcons
    obtain ⟨hx, hP⟩ := h _ x a ha
    obtain ⟨hxs, hPs⟩ := ih has'
    exact ⟨List.forall_mem_cons.mpr ⟨hx, hxs⟩, List.forall_mem_cons.mpr ⟨hP, hPs⟩⟩

theorem Gives.list (h : Gives read P) : Gives (list read) fun as => ∀ a ∈ as, P a := by
  intro p x as has
  unfold Reader.list at has
  split at has
  · obtain ⟨p', -, has⟩ := bind_eq_ok_iff.mp has
    obtain ⟨as', has', has⟩ := bind_eq_ok_iff.mp has
    obtain ⟨_, hend, hpure⟩ := bind_eq_ok_iff.mp has
    cases hpure
    obtain ⟨hxs, hPs⟩ := h.items has'
    exact ⟨Outline.not_faulty_array (Place.isStopped_of_endItems hend) hxs, hPs⟩
  · exact absurd has (mismatch_ne_ok _ _ _ _)

theorem isBracketed_of_list {p : Place} {x : Outline} {as : List α} (h : list read p x = .ok as) :
    x.isBracketed = true := by
  unfold Reader.list at h
  split at h
  · rfl
  · exact absurd h (mismatch_ne_ok _ _ _ _)

/-- What each member keeps is kept by an object as a whole. -/
theorem gives_members {I : σ → Prop} {check : σ → String → Except Cause Unit}
    {step : σ → String → Reader σ} (hstep : ∀ s k, I s → Gives (step s k) I) {p : Place}
    {ending : Ending} {s s' : σ} {ms : List (Except SyntaxError String × Outline)} (hs : I s)
    (h : members check step p ending s ms = .ok s') : ¬(Outline.object ms ending).Faulty ∧ I s' := by
  suffices hall : ending.isStopped = false ∧ (∀ m ∈ ms, ¬m.2.Faulty) ∧ I s' from
    ⟨Outline.not_faulty_object hall.1 hall.2.1, hall.2.2⟩
  induction ms generalizing s with
  | nil =>
    rw [members] at h
    obtain ⟨_, hend, hpure⟩ := bind_eq_ok_iff.mp h
    cases hpure
    exact ⟨Place.isStopped_of_endMembers hend, List.forall_mem_nil _, hs⟩
  | cons m ms ih =>
    obtain ⟨k, x⟩ := m
    rw [members] at h
    obtain ⟨k', -, h⟩ := bind_eq_ok_iff.mp h
    obtain ⟨_, -, h⟩ := bind_eq_ok_iff.mp h
    obtain ⟨t, ht, h⟩ := bind_eq_ok_iff.mp h
    obtain ⟨hx, hI⟩ := hstep s k' hs _ x t ht
    obtain ⟨hend, hms, hs'⟩ := ih hI h
    exact ⟨hend, List.forall_mem_cons.mpr ⟨hx, hms⟩, hs'⟩

/-- A mapping has each key once, and what stands under a key was read there. -/
theorem Gives.mapping (h : Gives read P) :
    Gives (mapping read) fun d => d.Distinct ∧ ∀ e ∈ d.entries, P e.2 := by
  intro p x d hd
  unfold Reader.mapping at hd
  split at hd
  · obtain ⟨p', -, hd⟩ := bind_eq_ok_iff.mp hd
    refine gives_members (I := fun d : Dict α => d.Distinct ∧ ∀ e ∈ d.entries, P e.2) ?_ ?_ hd
    · intro d k hI
      refine h.map fun a ha => ⟨hI.1.insert k a, fun e he => ?_⟩
      rcases Dict.mem_put he with rfl | he
      · exact ha
      · exact hI.2 e he
    · exact ⟨Dict.distinct_empty, List.forall_mem_nil _⟩
  · exact absurd hd (mismatch_ne_ok _ _ _ _)

/-! ### Records -/

/-- Reading the field keeps `I`, a property of what has been read of the record; `gives_record` has
it of all fields. -/
def Field.Keeps (I : σ → Prop) (f : Field σ) : Prop := ∀ s, I s → Gives (f.read s) I

theorem Gives.field {I : σ → Prop} (h : Gives read P) {put : σ → α → σ}
    (hput : ∀ s a, I s → P a → I (put s a)) (name : String) : (Field.of name read put).Keeps I :=
  fun s hs => h.map fun a ha => hput s a hs ha

variable {I : σ → Prop} {fields : List (Field σ)} {start : σ}

theorem gives_readField (hf : ∀ f ∈ fields, f.Keeps I) (s : σ × List String) (key : String)
    (hs : I s.1) : Gives (readField fields s key) fun r => I r.1 := by
  intro p x r hr
  unfold readField at hr
  split at hr
  · rename_i f hfind
    obtain ⟨t, ht, rfl⟩ := map_eq_ok_iff.mp hr
    exact hf f (List.mem_of_find?_eq_some hfind) s.1 hs p x t ht
  · obtain ⟨_, hu, rfl⟩ := map_eq_ok_iff.mp hr
    exact ⟨(gives_skip p x _ hu).1, hs⟩

theorem eq_of_endPositions {p : Place} {xs : List Outline} {ending : Ending} {u : Unit}
    (h : endPositions p xs ending = .ok u) : xs = [] ∧ ending = .closed := by
  unfold endPositions at h
  split at h
  · exact ⟨rfl, rfl⟩
  · cases h
  · cases h
  · cases h

theorem gives_positions (hf : ∀ f ∈ fields, f.Keeps I) {p : Place} {ending : Ending} {i : Nat}
    {s r : σ × List String} {xs : List Outline} (hs : I s.1)
    (h : positions p ending s i fields xs = .ok r) : ¬(Outline.array xs ending).Faulty ∧ I r.1 := by
  suffices hall : ending.isStopped = false ∧ (∀ x ∈ xs, ¬x.Faulty) ∧ I r.1 from
    ⟨Outline.not_faulty_array hall.1 hall.2.1, hall.2.2⟩
  induction fields generalizing s i xs with
  | nil =>
    rw [positions] at h
    obtain ⟨_, hend, hpure⟩ := bind_eq_ok_iff.mp h
    obtain ⟨rfl, rfl⟩ := eq_of_endPositions hend
    cases hpure
    exact ⟨rfl, List.forall_mem_nil _, hs⟩
  | cons f fs ih =>
    cases xs with
    | nil =>
      rw [positions] at h
      obtain ⟨_, hend, hpure⟩ := bind_eq_ok_iff.mp h
      cases hpure
      exact ⟨Place.isStopped_of_endItems hend, List.forall_mem_nil _, hs⟩
    | cons x xs =>
      rw [positions] at h
      obtain ⟨t, ht, h⟩ := bind_eq_ok_iff.mp h
      rw [List.forall_mem_cons] at hf
      obtain ⟨hx, hI⟩ := hf.1 s.1 hs _ x t ht
      obtain ⟨hend, hxs, hr⟩ := ih hf.2 (s := (t, f.name :: s.2)) hI h
      exact ⟨hend, List.forall_mem_cons.mpr ⟨hx, hxs⟩, hr⟩

theorem gives_record (expected : String) (hstart : I start) (hf : ∀ f ∈ fields, f.Keeps I) :
    Gives (record expected fields start) fun r => I r.1 := by
  intro p x r hr
  unfold record at hr
  split at hr
  · obtain ⟨p', -, hr⟩ := bind_eq_ok_iff.mp hr
    exact gives_members (I := fun r : σ × List String => I r.1)
      (fun s k hs => gives_readField hf s k hs) hstart hr
  · obtain ⟨p', -, hr⟩ := bind_eq_ok_iff.mp hr
    exact gives_positions hf (s := (start, [])) hstart hr
  · exact absurd hr (mismatch_ne_ok _ _ _ _)

theorem isBracketed_of_record {expected : String} {p : Place} {x : Outline} {r : σ × List String}
    (h : record expected fields start p x = .ok r) : x.isBracketed = true := by
  unfold record at h
  split at h
  · rfl
  · rfl
  · exact absurd h (mismatch_ne_ok _ _ _ _)

theorem gives_openRecord (expected : String) (hstart : I start) (hf : ∀ f ∈ fields, f.Keeps I) :
    Gives (openRecord expected fields start) I :=
  (gives_record expected hstart hf).map fun _ h => h

end Reader

/-- A reader that gives an array or an object does not see what follows it, by
`Outline.ofBytes_append`. -/
theorem load_append {read : Reader α} {P : α → Prop} {bs : List UInt8} {a : α}
    (hread : read.Gives P) (hb : (Outline.ofBytes bs).isBracketed = true) (h : load read bs = .ok a)
    (more : List UInt8) : load read (bs ++ more) = .ok a := by
  rw [load, Outline.ofBytes_append hb (hread _ _ a h).1]
  exact h

end Document

end Interchange
