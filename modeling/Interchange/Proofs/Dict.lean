import Interchange.Dict
import Mathlib.Data.List.Forall2

/-! # Dictionaries as maps

What can be looked up in a dictionary that is entered pair by pair (`get?_enter`, `get?_ofList`),
and when two dictionaries are equal (`ext_get?`). Before that, runs over a list that may fail at
each element.
-/

namespace Interchange

variable {α β γ : Type}

/-! ## Runs over lists -/

theorem mapM_eq_some_iff {f : α → Option β} {as : List α} {bs : List β} :
    as.mapM f = some bs ↔ List.Forall₂ (fun a b => f a = some b) as bs := by
  induction as generalizing bs with
  | nil => simp [eq_comm]
  | cons a as ih =>
    rw [List.mapM_cons, List.forall₂_cons_left_iff]
    constructor
    · intro h
      simp only [Option.bind_eq_bind, Option.bind_eq_some_iff, Option.pure_def,
        Option.some.injEq] at h
      obtain ⟨b, hb, bs', hbs, rfl⟩ := h
      exact ⟨b, bs', hb, ih.mp hbs, rfl⟩
    · rintro ⟨b, bs', hb, hbs, rfl⟩
      simp [hb, ih.mpr hbs]

theorem isSome_mapM {f : α → Option β} {as : List α} :
    (as.mapM f).isSome = true ↔ ∀ a ∈ as, (f a).isSome = true := by
  induction as with
  | nil => simp
  | cons a as ih =>
    rw [List.mapM_cons, List.forall_mem_cons, ← ih]
    cases f a <;> cases as.mapM f <;> simp

/-- What holds in front of a place in a list, by positions and by members. -/
theorem forall_getElem?_append_iff {P : α → Prop} {as bs : List α} :
    (∀ j < as.length, ∀ a, (as ++ bs)[j]? = some a → P a) ↔ ∀ a ∈ as, P a := by
  constructor
  · intro h a ha
    obtain ⟨j, hj, rfl⟩ := List.getElem_of_mem ha
    refine h j hj _ ?_
    rw [List.getElem?_append_left hj, List.getElem?_eq_getElem hj]
  · intro h j hj a ha
    rw [List.getElem?_append_left hj] at ha
    exact h a (List.mem_of_getElem? ha)

theorem optionRel_iff {R : α → β → Prop} {a : Option α} {b : Option β} :
    Option.Rel R a b ↔ a.isSome = b.isSome ∧ ∀ x y, a = some x → b = some y → R x y := by
  constructor
  · intro h
    cases h with
    | none => exact ⟨rfl, nofun⟩
    | some h =>
      refine ⟨rfl, ?_⟩
      rintro _ _ ⟨⟩ ⟨⟩
      exact h
  · rintro ⟨hs, h⟩
    cases a <;> cases b
    · exact .none
    · cases hs
    · cases hs
    · exact .some (h _ _ rfl rfl)

theorem exists_of_rel_some {R : α → β → Prop} {a : α} {b : Option β} (h : Option.Rel R (some a) b) :
    ∃ b', b = some b' ∧ R a b' := by
  cases h with
  | some h => exact ⟨_, rfl, h⟩

theorem eq_none_of_rel {R : α → β → Prop} {b : Option β} (h : Option.Rel R none b) : b = none := by
  cases h
  rfl

theorem forall₂_iff_getElem? {R : α → β → Prop} {as : List α} {bs : List β} :
    List.Forall₂ R as bs ↔ ∀ i : Nat, Option.Rel R as[i]? bs[i]? := by
  constructor
  · intro h
    induction h with
    | nil => exact fun _ => .none
    | cons hab _ ih =>
      intro i
      cases i with
      | zero => exact .some hab
      | succ i => exact ih i
  · intro h
    induction as generalizing bs with
    | nil =>
      cases bs with
      | nil => exact .nil
      | cons => cases h 0
    | cons a as ih =>
      cases bs with
      | nil => cases h 0
      | cons b bs =>
        cases h 0 with
        | some hab => exact .cons hab (ih fun i => h (i + 1))

theorem Forall₂.exists_right {R : α → β → Prop} {as : List α} {bs : List β}
    (h : List.Forall₂ R as bs) : ∀ a ∈ as, ∃ b ∈ bs, R a b := by
  induction h with
  | nil => simp
  | cons hab _ ih =>
    intro a' ha'
    rcases List.mem_cons.mp ha' with rfl | ha'
    · exact ⟨_, List.mem_cons_self, hab⟩
    · obtain ⟨b', hb', hr⟩ := ih a' ha'
      exact ⟨b', List.mem_cons_of_mem _ hb', hr⟩

theorem Forall₂.exists_left {R : α → β → Prop} {as : List α} {bs : List β}
    (h : List.Forall₂ R as bs) : ∀ b ∈ bs, ∃ a ∈ as, R a b :=
  Forall₂.exists_right (R := fun b a => R a b) h.flip

theorem Forall₂.map_eq {f : α → γ} {g : β → γ} {as : List α} {bs : List β}
    (h : List.Forall₂ (fun a b => f a = g b) as bs) : as.map f = bs.map g := by
  induction h with
  | nil => rfl
  | cons hab _ ih => rw [List.map_cons, List.map_cons, hab, ih]

theorem forall₂_comp_iff {R : α → β → Prop} {S : β → γ → Prop} {as : List α} {cs : List γ} :
    List.Forall₂ (fun a c => ∃ b, R a b ∧ S b c) as cs ↔
      ∃ bs, List.Forall₂ R as bs ∧ List.Forall₂ S bs cs := by
  constructor
  · intro h
    induction h with
    | nil => exact ⟨[], .nil, .nil⟩
    | cons hac _ ih =>
      obtain ⟨b, hab, hbc⟩ := hac
      obtain ⟨bs, h, h'⟩ := ih
      exact ⟨b :: bs, .cons hab h, .cons hbc h'⟩
  · rintro ⟨bs, h, h'⟩
    induction h generalizing cs with
    | nil =>
      cases h'
      exact .nil
    | cons hab _ ih =>
      cases h' with
      | cons hbc h' => exact .cons ⟨_, hab, hbc⟩ (ih h')

/-- Between lists that are related already, a relation may be told by the left elements alone. -/
theorem forall₂_iff_forall {R S : α → β → Prop} {P : α → Prop} {as : List α} {bs : List β}
    (h : List.Forall₂ R as bs) (hS : ∀ a ∈ as, ∀ b, R a b → (S a b ↔ P a)) :
    List.Forall₂ S as bs ↔ ∀ a ∈ as, P a := by
  induction h with
  | nil => simp
  | cons hab _ ih =>
    rw [List.forall_mem_cons] at hS ⊢
    rw [List.forall₂_cons]
    exact and_congr (hS.1 _ hab) (ih hS.2)

theorem Forall₂.imp_of_mem {R S : α → β → Prop} {as : List α} {bs : List β}
    (h : List.Forall₂ R as bs) (hRS : ∀ a ∈ as, ∀ b, R a b → S a b) : List.Forall₂ S as bs :=
  ((List.forall₂_and_left _ _).mpr ⟨fun _ ha => ha, h⟩).imp fun a b hab => hRS a hab.1 b hab.2

theorem exists_forall₂ {R : α → β → Prop} {as : List α} (h : ∀ a ∈ as, ∃ b, R a b) :
    ∃ bs, List.Forall₂ R as bs := by
  induction as with
  | nil => exact ⟨[], .nil⟩
  | cons a as ih =>
    rw [List.forall_mem_cons] at h
    obtain ⟨b, hb⟩ := h.1
    obtain ⟨bs, hbs⟩ := ih h.2
    exact ⟨b :: bs, .cons hb hbs⟩

section Entries

variable {f : α → Option β} {es : List (String × α)} {xs : List (String × β)}
  (h : (es.mapM fun e => (f e.2).map fun y => (e.1, y)) = some xs)

include h

theorem map_fst_of_mapM : xs.map (·.1) = es.map (·.1) := by
  refine (Forall₂.map_eq ((mapM_eq_some_iff.mp h).imp fun e x hx => ?_)).symm
  obtain ⟨y, -, rfl⟩ := Option.map_eq_some_iff.mp hx
  rfl

theorem lookup_of_mapM (k : String) : xs.lookup k = (es.lookup k).bind f := by
  have hf := mapM_eq_some_iff.mp h
  clear h
  induction hf with
  | nil => rfl
  | @cons e x es xs hx _ ih =>
    obtain ⟨y, hy, rfl⟩ := Option.map_eq_some_iff.mp hx
    obtain ⟨k', v⟩ := e
    rw [List.lookup_cons, List.lookup_cons, ih]
    cases k == k' with
    | true => exact hy.symm
    | false => rfl

end Entries

namespace Dict

variable {d e : Dict α} {k : String} {v : α} {es : List (String × α)}

/-! ## Looking up -/

theorem mem_of_get? (h : d.get? k = some v) : (k, v) ∈ d.entries := by
  obtain ⟨l₁, l₂, h, -⟩ := List.lookup_eq_some_iff.mp h
  rw [h]
  simp

theorem get?_eq_none_iff : d.get? k = none ↔ k ∉ d.keys := by
  simp only [get?, List.lookup_eq_none_iff, keys, List.mem_map, Prod.exists, not_exists, not_and]
  constructor
  · intro h k' a ha hk
    subst hk
    simpa using h _ ha
  · intro h p hp
    simpa using fun hk : k = p.1 => h p.1 p.2 hp hk.symm

theorem get?_map (f : α → β) (d : Dict α) (k : String) : (d.map f).get? k = (d.get? k).map f := by
  obtain ⟨es⟩ := d
  change (es.map fun e => (e.1, f e.2)).lookup k = (es.lookup k).map f
  induction es with
  | nil => rfl
  | cons e es ih =>
    rw [List.map_cons, List.lookup_cons, List.lookup_cons]
    cases k == e.1 with
    | true => rfl
    | false => exact ih

theorem contains_eq_true_iff : d.contains k = true ↔ k ∈ d.keys := by
  rw [contains, Option.isSome_iff_ne_none, ne_eq, get?_eq_none_iff, not_not]

theorem contains_eq_true_iff_exists : d.contains k = true ↔ ∃ v, d.get? k = some v := by
  rw [contains, Option.isSome_iff_exists]

/-- Changing what stands under the keys leaves the `keys` in place. -/
theorem keys_map_entries (d : Dict α) (f : String × α → β) :
    (⟨d.entries.map fun e => (e.1, f e)⟩ : Dict β).keys = d.keys := by
  rw [keys, List.map_map]
  rfl

theorem Distinct.map_entries (h : d.Distinct) (f : String × α → β) :
    (⟨d.entries.map fun e => (e.1, f e)⟩ : Dict β).Distinct := by
  rw [Distinct, keys_map_entries]
  exact h

theorem key_mem_of_mem {p : String × α} (h : p ∈ d.entries) : p.1 ∈ d.keys :=
  List.mem_map.mpr ⟨p, h, rfl⟩

theorem lookup_of_mem (hd : (es.map (·.1)).Nodup) (h : (k, v) ∈ es) : es.lookup k = some v := by
  induction es with
  | nil => simp at h
  | cons p es ih =>
    obtain ⟨k', v'⟩ := p
    rw [List.map_cons, List.nodup_cons] at hd
    rw [List.lookup_cons]
    rcases List.mem_cons.mp h with heq | hm
    · cases heq
      simp
    · have hk : (k == k') = false := by
        simp only [beq_eq_false_iff_ne, ne_eq]
        rintro rfl
        exact hd.1 (List.mem_map.mpr ⟨_, hm, rfl⟩)
      simp only [hk]
      exact ih hd.2 hm

theorem get?_of_mem (hd : d.Distinct) (h : (k, v) ∈ d.entries) : d.get? k = some v :=
  lookup_of_mem hd h

/-- A dictionary is given by its `keys` in order and what `get?` finds under each. -/
theorem ext_get? (hd : d.Distinct) (hk : d.keys = e.keys) (h : ∀ k, d.get? k = e.get? k) : d = e := by
  obtain ⟨es⟩ := d
  obtain ⟨es'⟩ := e
  simp only [keys, Distinct, get?] at hd hk h
  congr 1
  induction es generalizing es' with
  | nil => exact (List.map_eq_nil_iff.mp hk.symm).symm
  | cons p es ih =>
    cases es' with
    | nil => simp at hk
    | cons p' es' =>
      obtain ⟨k, v⟩ := p
      obtain ⟨k', v'⟩ := p'
      simp only [List.map_cons, List.cons.injEq] at hk
      obtain ⟨rfl, hk⟩ := hk
      rw [List.map_cons, List.nodup_cons] at hd
      have hv : v = v' := by simpa using h k
      subst hv
      rw [ih hd.2 es' hk fun x => ?_]
      by_cases hx : x = k
      · subst hx
        rw [List.lookup_eq_none_iff.mpr, List.lookup_eq_none_iff.mpr]
        · intro p hp
          simpa using fun hxp : x = p.1 => hd.1 (hk ▸ List.mem_map.mpr ⟨p, hp, hxp.symm⟩)
        · intro p hp
          simpa using fun hxp : x = p.1 => hd.1 (List.mem_map.mpr ⟨p, hp, hxp.symm⟩)
      · have hx' : (x == k) = false := by simpa using hx
        simpa [List.lookup_cons, hx'] using h x

/-! ## Entering pairs -/

/-- Enters the pairs in turn. The fold of `ofList`, from any dictionary. -/
def enter (d : Dict α) (es : List (String × α)) : Dict α := es.foldl (fun d e => d.insert e.1 e.2) d

theorem ofList_eq_enter (es : List (String × α)) : ofList es = enter ∅ es := rfl

@[simp] theorem enter_cons (d : Dict α) (p : String × α) (es : List (String × α)) :
    d.enter (p :: es) = (d.insert p.1 p.2).enter es := rfl

theorem Distinct.enter (hd : d.Distinct) (es : List (String × α)) : (d.enter es).Distinct := by
  induction es generalizing d with
  | nil => exact hd
  | cons p es ih => exact ih (hd.insert p.1 p.2)

/-- The pair entered last counts. -/
theorem get?_enter (d : Dict α) (es : List (String × α)) (k : String) :
    (d.enter es).get? k = (es.reverse.lookup k).or (d.get? k) := by
  induction es generalizing d with
  | nil => simp [enter]
  | cons p es ih =>
    obtain ⟨k', v⟩ := p
    rw [enter_cons, ih, List.reverse_cons, List.lookup_append, Option.or_assoc]
    congr 1
    by_cases hk : k = k'
    · subst hk
      simp
    · have hk' : (k == k') = false := by simpa using hk
      rw [get?_insert_ne d v hk]
      simp [List.lookup_cons, hk']

theorem get?_ofList (es : List (String × α)) (k : String) :
    (ofList es).get? k = es.reverse.lookup k := by
  rw [ofList_eq_enter, get?_enter, get?_empty, Option.or_none]

/-- Adds a key at the end unless it is there. -/
def addKey (ks : List String) (k : String) : List String := if k ∈ ks then ks else ks ++ [k]

theorem keys_enter (d : Dict α) (es : List (String × α)) :
    (d.enter es).keys = (es.map (·.1)).foldl addKey d.keys := by
  induction es generalizing d with
  | nil => rfl
  | cons p es ih => rw [enter_cons, ih, keys_insert, List.map_cons, List.foldl_cons, addKey]

theorem mem_foldl_addKey {ks ns : List String} {k : String} :
    k ∈ ns.foldl addKey ks ↔ k ∈ ks ∨ k ∈ ns := by
  induction ns generalizing ks with
  | nil => simp
  | cons n ns ih =>
    rw [List.foldl_cons, ih, List.mem_cons, addKey]
    split
    · rename_i hn
      constructor
      · rintro (h | h)
        · exact .inl h
        · exact .inr (.inr h)
      · rintro (h | rfl | h)
        · exact .inl h
        · exact .inl hn
        · exact .inr h
    · rw [List.mem_append, List.mem_singleton, or_assoc]

theorem foldl_addKey_of_subset {ks ns : List String} (h : ∀ n ∈ ns, n ∈ ks) :
    ns.foldl addKey ks = ks := by
  induction ns with
  | nil => rfl
  | cons n ns ih =>
    rw [List.forall_mem_cons] at h
    rw [List.foldl_cons, addKey, if_pos h.1, ih h.2]

theorem mem_keys_ofList : k ∈ (ofList es).keys ↔ k ∈ es.map (·.1) := by
  rw [ofList_eq_enter, keys_enter, mem_foldl_addKey]
  simp [keys, EmptyCollection.emptyCollection]

theorem keys_ofList_congr {es es' : List (String × α)} (h : es.map (·.1) = es'.map (·.1)) :
    (ofList es).keys = (ofList es').keys := by
  rw [ofList_eq_enter, ofList_eq_enter, keys_enter, keys_enter, h]

/-- Entering all keys of a dictionary again leaves nothing of what stood under them: `enter` forgets
`d`. -/
theorem enter_eq_ofList (hd : d.Distinct) (hk : d.keys = (ofList es).keys) :
    d.enter es = ofList es := by
  refine ext_get? (hd.enter es) ?_ fun k => ?_
  · rw [keys_enter, foldl_addKey_of_subset fun n hn => ?_, hk]
    rw [hk, mem_keys_ofList]
    exact hn
  · rw [get?_enter, get?_ofList]
    cases hr : es.reverse.lookup k with
    | some v => rfl
    | none =>
      rw [Option.none_or, get?_eq_none_iff, hk, ← get?_eq_none_iff, get?_ofList]
      exact hr

theorem mem_put {p : String × α} (h : p ∈ put k v es) : p = (k, v) ∨ p ∈ es := by
  induction es with
  | nil => exact .inl (List.mem_singleton.mp h)
  | cons q es ih =>
    rw [put] at h
    split at h
    · rcases List.mem_cons.mp h with h | h
      · exact .inl h
      · exact .inr (List.mem_cons_of_mem _ h)
    · rcases List.mem_cons.mp h with h | h
      · exact .inr (h ▸ List.mem_cons_self)
      · exact (ih h).imp id (List.mem_cons_of_mem _)

theorem mem_enter {p : String × α} (h : p ∈ (d.enter es).entries) : p ∈ d.entries ∨ p ∈ es := by
  induction es generalizing d with
  | nil => exact .inl h
  | cons q es ih =>
    rcases ih h with h | h
    · rcases mem_put h with h | h
      · exact .inr (h ▸ List.mem_cons_self)
      · exact .inl h
    · exact .inr (List.mem_cons_of_mem _ h)

theorem mem_ofList {p : String × α} (h : p ∈ (ofList es).entries) : p ∈ es :=
  (mem_enter h).resolve_left (by simp [EmptyCollection.emptyCollection])

/-- Entering keys by `addKey` appends those that are new, in their order. -/
theorem foldl_addKey_eq {ks ns : List String} (h : ns.Nodup) :
    ns.foldl addKey ks = ks ++ ns.filter (· ∉ ks) := by
  induction ns generalizing ks with
  | nil => simp
  | cons n ns ih =>
    rw [List.nodup_cons] at h
    rw [List.foldl_cons, ih h.2, addKey]
    split
    · rename_i hn
      rw [List.filter_cons_of_neg (by simpa using hn)]
    · rename_i hn
      have hrest : ns.filter (· ∉ ks ++ [n]) = ns.filter (· ∉ ks) := by
        refine List.filter_congr fun k hk => ?_
        have hne : k ≠ n := fun heq => h.1 (heq ▸ hk)
        simp [hne]
      rw [hrest, List.filter_cons_of_pos (by simpa using hn), List.append_assoc, List.singleton_append]

theorem foldl_addKey_of_nodup {ks ns : List String} (h : (ks ++ ns).Nodup) :
    ns.foldl addKey ks = ks ++ ns := by
  obtain ⟨-, hns, hdisjoint⟩ := List.nodup_append.mp h
  rw [foldl_addKey_eq hns, List.filter_eq_self.mpr fun n hn => ?_]
  exact decide_eq_true fun hk => hdisjoint n hk n hn rfl

/-- Pairs with distinct keys are entered as they stand, so `ofList` does nothing to them. -/
theorem ofList_of_nodup (h : (es.map (·.1)).Nodup) : ofList es = ⟨es⟩ := by
  refine ext_get? (distinct_ofList es) ?_ fun k => ?_
  · rw [ofList_eq_enter, keys_enter]
    exact foldl_addKey_of_nodup h
  · rw [get?_ofList]
    cases hr : es.reverse.lookup k with
    | some v => exact (lookup_of_mem h (List.mem_reverse.mp (mem_of_get? (d := ⟨_⟩) hr))).symm
    | none =>
      symm
      rw [get?, List.lookup_eq_none_iff]
      rw [List.lookup_eq_none_iff] at hr
      exact fun p hp => hr p (List.mem_reverse.mpr hp)

theorem get?_ofList_of_nodup (h : (es.map (·.1)).Nodup) : (ofList es).get? k = es.lookup k := by
  rw [ofList_of_nodup h]
  rfl

/-- What is found after a run over the entries of a dictionary, which leaves its keys in place. -/
theorem get?_ofList_of_mapM {f : α → Option β} {xs : List (String × β)} (hd : d.Distinct)
    (h : (d.entries.mapM fun e => (f e.2).map fun y => (e.1, y)) = some xs) (k : String) :
    (ofList xs).get? k = (d.get? k).bind f := by
  have hn : (xs.map (·.1)).Nodup := by
    rw [map_fst_of_mapM h]
    exact hd
  rw [get?_ofList_of_nodup hn, lookup_of_mapM h]
  rfl

/-! ## Writing over entries -/

theorem put_of_lookup (h : es.lookup k = some v) : put k v es = es := by
  induction es with
  | nil => cases h
  | cons p es ih =>
    obtain ⟨k', w⟩ := p
    rw [put]
    split
    · rename_i hk
      subst hk
      rw [List.lookup_cons_self] at h
      cases h
      rfl
    · rename_i hk
      rw [List.lookup_cons, beq_eq_false_iff_ne.mpr (Ne.symm hk)] at h
      rw [ih h]

theorem insert_of_get? (h : d.get? k = some v) : d.insert k v = d :=
  congrArg Dict.mk (put_of_lookup h)

theorem put_put (k : String) (v w : α) (es : List (String × α)) :
    put k w (put k v es) = put k w es := by
  induction es with
  | nil => simp [put]
  | cons p es ih => by_cases hk : p.1 = k <;> simp [put, hk, ih]

theorem insert_insert (d : Dict α) (k : String) (v w : α) :
    (d.insert k v).insert k w = d.insert k w :=
  congrArg Dict.mk (put_put k v w d.entries)

/-- Writes under different keys may change places if the first one does not add its key; otherwise
`put` would append them in another order. -/
theorem put_comm {k l : String} (hne : k ≠ l) (hk : k ∈ es.map (·.1)) (v w : α) :
    put l w (put k v es) = put k v (put l w es) := by
  induction es with
  | nil => cases hk
  | cons p es ih =>
    rw [List.map_cons, List.mem_cons] at hk
    by_cases hp : p.1 = k
    · simp [put, hp, hne]
    · by_cases hl : p.1 = l
      · simp [put, hl, hne.symm]
      · simp [put, hp, hl, ih (hk.resolve_left (Ne.symm hp))]

theorem insert_comm {k l : String} (hne : k ≠ l) (hk : k ∈ d.keys) (v w : α) :
    (d.insert k v).insert l w = (d.insert l w).insert k v :=
  congrArg Dict.mk (put_comm hne hk v w)

/-- What is written under a key is lost if the key is entered again. -/
theorem enter_insert (hk : k ∈ d.keys) (h : k ∈ es.map (·.1)) (v : α) :
    (d.insert k v).enter es = d.enter es := by
  induction es generalizing d with
  | nil => cases h
  | cons p es ih =>
    obtain ⟨l, w⟩ := p
    rw [enter_cons, enter_cons]
    by_cases hl : k = l
    · rw [hl, insert_insert]
    · rw [List.map_cons, List.mem_cons] at h
      have hk' : k ∈ (d.insert l w).keys := by
        rw [keys_insert]
        split
        · exact hk
        · exact List.mem_append_left _ hk
      rw [insert_comm hl hk, ih hk' (h.resolve_left hl)]

/-- A dictionary that has each key as it is entered last stays as it is. -/
theorem enter_of_get? (h : ∀ k v, es.reverse.lookup k = some v → d.get? k = some v) :
    d.enter es = d := by
  induction es with
  | nil => rfl
  | cons p es ih =>
    obtain ⟨k, v⟩ := p
    rw [List.reverse_cons] at h
    have hes : d.enter es = d := ih fun l w hl => h l w (by rw [List.lookup_append, hl, Option.some_or])
    rw [enter_cons]
    cases hk : es.reverse.lookup k with
    | none =>
      have hv : d.get? k = some v := h k v (by simp [List.lookup_append, hk])
      rw [insert_of_get? hv, hes]
    | some w =>
      have hw : d.get? k = some w := h k w (by rw [List.lookup_append, hk, Option.some_or])
      have hmem : k ∈ es.map (·.1) := by
        have := key_mem_of_mem (d := ⟨es.reverse⟩) (mem_of_get? (d := ⟨es.reverse⟩) hk)
        simpa [keys] using this
      rw [enter_insert (key_mem_of_mem (mem_of_get? hw)) hmem, hes]

theorem enter_enter (d : Dict α) (es : List (String × α)) : (d.enter es).enter es = d.enter es := by
  refine enter_of_get? fun k v hk => ?_
  rw [get?_enter, hk, Option.some_or]

theorem enter_append (d : Dict α) (es fs : List (String × α)) :
    d.enter (es ++ fs) = (d.enter es).enter fs :=
  List.foldl_append

theorem exists_lookup_of_mem (h : k ∈ es.map (·.1)) : ∃ v, es.lookup k = some v :=
  contains_eq_true_iff_exists.mp (contains_eq_true_iff (d := ⟨es⟩).mpr h)

/-- What a key holds that is entered does not depend on the dictionary, see `enter_eq_ofList`. -/
theorem get?_enter_congr (h : k ∈ es.map (·.1)) (d d' : Dict α) :
    (d.enter es).get? k = (d'.enter es).get? k := by
  have hk : k ∈ es.reverse.map (·.1) := by simpa using h
  obtain ⟨v, hv⟩ := exists_lookup_of_mem hk
  rw [get?_enter, get?_enter, hv, Option.some_or, Option.some_or]

theorem get?_enter_of_not_mem (h : k ∉ es.map (·.1)) (d : Dict α) : (d.enter es).get? k = d.get? k := by
  have hk : k ∉ es.reverse.map (·.1) := by simpa using h
  have hnone : es.reverse.lookup k = none := (get?_eq_none_iff (d := ⟨es.reverse⟩)).mpr hk
  rw [get?_enter, hnone, Option.none_or]

theorem get?_enter_of_mem (hn : (es.map (·.1)).Nodup) (h : (k, v) ∈ es) (d : Dict α) :
    (d.enter es).get? k = some v := by
  have hn' : (es.reverse.map (·.1)).Nodup := ((List.reverse_perm es).map (·.1)).nodup_iff.mpr hn
  rw [get?_enter, lookup_of_mem hn' (List.mem_reverse.mpr h), Option.some_or]

theorem keys_enter_of_subset (h : ∀ p ∈ es, p.1 ∈ d.keys) : (d.enter es).keys = d.keys := by
  rw [keys_enter]
  apply foldl_addKey_of_subset
  intro n hn
  obtain ⟨p, hp, rfl⟩ := List.mem_map.mp hn
  exact h p hp

end Dict

end Interchange
