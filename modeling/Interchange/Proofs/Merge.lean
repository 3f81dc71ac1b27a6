import Interchange.Proofs.Value

/-! # Deep merging

What a merged dictionary holds under each key, at every depth and in which order (`Merged`), the
values that are absorbed when another one is merged over them (`Absorbed`), and the laws of merging
(`MergeLaws`). Everything rests on `get?_merge`, which says what one key holds.
-/

namespace Interchange.Value

variable {d e : Dict Value} {k : String} {v w : Value} {es : List (String × Value)}

/-! ## Merging key by key -/

@[simp] theorem mergeOver_none (v : Value) : mergeOver none v = v := by
  cases v <;> simp [mergeOver]

@[simp] theorem mergeOver_dict (d e : Dict Value) :
    mergeOver (some (.dict d)) (.dict e) = .dict (merge d e) := by
  simp [mergeOver, merge]

/-- Where one of the two is no dictionary the incoming value wins. -/
theorem mergeOver_of_dict?_eq_none (h : w.dict? = none ∨ v.dict? = none) :
    mergeOver (some w) v = v := by
  cases v with
  | dict e =>
    cases w with
    | dict d => simp [dict?] at h
    | null | bool | int | double | string | binary | list => simp [mergeOver]
  | null | bool | int | double | string | binary | list => simp [mergeOver]

theorem dict_or_apart (w v : Value) :
    (w.dict? = none ∨ v.dict? = none) ∨ ∃ d e, w = .dict d ∧ v = .dict e := by
  cases w <;> cases v <;> simp [dict?]

theorem get?_mergeEntries (h : (es.map (·.1)).Nodup) (d : Dict Value) (k : String) :
    (mergeEntries d es).get? k =
      match es.lookup k with
      | none => d.get? k
      | some v => some (mergeOver (d.get? k) v) := by
  induction es generalizing d with
  | nil => simp [mergeEntries]
  | cons p es ih =>
    obtain ⟨k', v⟩ := p
    rw [List.map_cons, List.nodup_cons] at h
    rw [mergeEntries, ih h.2]
    by_cases hk : k = k'
    · subst hk
      have hn : es.lookup k = none := (Dict.get?_eq_none_iff (d := ⟨es⟩)).mpr h.1
      rw [hn]
      simp
    · have hk' : (k == k') = false := by simpa using hk
      rw [Dict.get?_insert_ne d _ hk, List.lookup_cons, hk']

theorem get?_merge (he : e.Distinct) (d : Dict Value) (k : String) :
    (merge d e).get? k =
      match e.get? k with
      | none => d.get? k
      | some v => some (mergeOver (d.get? k) v) :=
  get?_mergeEntries he d k

theorem keys_mergeEntries (d : Dict Value) (es : List (String × Value)) :
    (mergeEntries d es).keys = (es.map (·.1)).foldl Dict.addKey d.keys := by
  induction es generalizing d with
  | nil => simp [mergeEntries]
  | cons p es ih =>
    obtain ⟨k, v⟩ := p
    rw [mergeEntries, ih, Dict.keys_insert, List.map_cons, List.foldl_cons, Dict.addKey]

theorem distinct_mergeEntries (hd : d.Distinct) (es : List (String × Value)) :
    (mergeEntries d es).Distinct := by
  induction es generalizing d with
  | nil => simpa [mergeEntries] using hd
  | cons p es ih =>
    obtain ⟨k, v⟩ := p
    rw [mergeEntries]
    exact ih (hd.insert k _)

theorem distinct_merge (hd : d.Distinct) (e : Dict Value) : (merge d e).Distinct :=
  distinct_mergeEntries hd e.entries

theorem merge_empty (he : e.Distinct) : merge ∅ e = e := by
  refine Dict.ext_get? (distinct_merge Dict.distinct_empty e) ?_ fun k => ?_
  · rw [merge, keys_mergeEntries]
    exact Dict.foldl_addKey_of_nodup he
  · rw [get?_merge he, Dict.get?_empty]
    cases e.get? k <;> simp

/-! ## Merging keeps values regular -/

theorem regular_mergeOver {w v : Value} (hw : Regular w) (hv : Regular v) :
    Regular (mergeOver (some w) v) := by
  rcases dict_or_apart w v with h | ⟨d, e, rfl, rfl⟩
  · rwa [mergeOver_of_dict?_eq_none h]
  rw [mergeOver_dict, regular_dict_iff]
  refine ⟨distinct_merge hw.distinct e, fun p hp => ?_⟩
  have hk := Dict.get?_of_mem (distinct_merge hw.distinct e) hp
  rw [get?_merge hv.distinct] at hk
  cases he : e.get? p.1 with
  | none =>
    rw [he] at hk
    exact hw.of_get? hk
  | some u =>
    simp only [he, Option.some.injEq] at hk
    rw [← hk]
    cases hd : d.get? p.1 with
    | none =>
      rw [mergeOver_none]
      exact hv.of_get? he
    | some o => exact regular_mergeOver (hw.of_get? hd) (hv.of_get? he)
termination_by sizeOf v
decreasing_by
  subst_vars
  exact (Part.of_get? he).sizeOf_lt

theorem regular_merge (hd : Regular (.dict d)) (he : Regular (.dict e)) :
    Regular (.dict (merge d e)) := by
  rw [← mergeOver_dict]
  exact regular_mergeOver hd he

/-! ## Absorption -/

/-- Merging the second value over the first leaves nothing of the first: where both hold a
dictionary, every key of the first is one of the second. -/
inductive Absorbed : Value → Value → Prop
  | apart {w v : Value} (h : w.dict? = none ∨ v.dict? = none) : Absorbed w v
  | dict {d e : Dict Value} (keys : ∀ k, d.contains k = true → e.contains k = true)
      (parts : ∀ k a b, d.get? k = some a → e.get? k = some b → Absorbed a b) :
      Absorbed (.dict d) (.dict e)

theorem absorbed_empty (v : Value) : Absorbed (.dict ∅) v := by
  cases v with
  | dict e => exact .dict (fun k hk => by simp [Dict.contains] at hk) fun k a b ha => by simp at ha
  | null | bool | int | double | string | binary | list => exact .apart (.inr rfl)

theorem Alike.absorbed {R : Double → Double → Prop} (h : Alike R w v) : Absorbed w v := by
  induction h with
  | @intro w v _ places _ ih =>
    rcases dict_or_apart w v with h | ⟨d, e, rfl, rfl⟩
    · exact .apart h
    · refine .dict (fun k hk => ?_) fun k a b ha hb => ih (.entry k) a b ha hb
      rw [Dict.contains] at hk ⊢
      exact (places (.entry k)).symm.trans hk

theorem Absorbed.refl (v : Value) : Absorbed v v :=
  (Alike.refl (fun _ => Eq.refl _) v).absorbed

/-- Merging over what is `Absorbed` changes nothing but the order of keys. -/
theorem Absorbed.alike (h : Absorbed w v) (hv : Regular v) : Alike Eq (mergeOver (some w) v) v := by
  induction h with
  | @apart w v h =>
    rw [mergeOver_of_dict?_eq_none h]
    exact .refl (fun _ => rfl) v
  | @dict d e keys _ ih =>
    rw [mergeOver_dict, alike_dict_iff]
    intro k
    rw [get?_merge hv.distinct]
    cases he : e.get? k with
    | none =>
      have hd : d.get? k = none := by
        by_contra hd
        have := keys k (Option.isSome_iff_ne_none.mpr hd)
        simp [Dict.contains, he] at this
      simp only [hd]
      exact .none
    | some b =>
      refine .some ?_
      cases hd : d.get? k with
      | none =>
        rw [mergeOver_none]
        exact .refl (fun _ => rfl) b
      | some a => exact ih k a b hd he (hv.of_get? he)

/-! ## Merging again -/

/-- Entries that change nothing where they stand leave the dictionary as it is. So does merging the
same dictionary again, see `mergeOver_mergeOver`. -/
theorem mergeEntries_eq_self (h : ∀ p ∈ es, ∃ w, d.get? p.1 = some w ∧ mergeOver (some w) p.2 = w) :
    mergeEntries d es = d := by
  induction es with
  | nil => rw [mergeEntries]
  | cons p es ih =>
    rw [List.forall_mem_cons] at h
    obtain ⟨⟨w, hw, hmerge⟩, hes⟩ := h
    rw [mergeEntries, hw, hmerge, Dict.insert_of_get? hw, ih hes]

/-- Whatever a dictionary is merged over, it is merged into some dictionary. -/
theorem exists_mergeOver_dict (he : e.Distinct) (old : Option Value) :
    ∃ d, mergeOver old (.dict e) = .dict (merge d e) := by
  cases old with
  | none => exact ⟨∅, by rw [mergeOver_none, merge_empty he]⟩
  | some w =>
    rcases dict_or_apart w (.dict e) with h | ⟨d, _, rfl, h⟩
    · exact ⟨∅, by rw [mergeOver_of_dict?_eq_none h, merge_empty he]⟩
    · cases h
      exact ⟨d, mergeOver_dict d e⟩

/-- A value that is merged twice counts once: `mergeOver` is idempotent in what comes in. -/
theorem mergeOver_mergeOver (hv : Regular v) (old : Option Value) :
    mergeOver (some (mergeOver old v)) v = mergeOver old v := by
  induction v using part_induction generalizing old with
  | step v ih =>
    cases v with
    | dict e =>
      obtain ⟨d, hd⟩ := exists_mergeOver_dict hv.distinct old
      rw [hd, mergeOver_dict]
      refine congrArg _ (mergeEntries_eq_self fun p hp => ⟨mergeOver (d.get? p.1) p.2, ?_, ?_⟩)
      · rw [get?_merge hv.distinct, Dict.get?_of_mem hv.distinct hp]
      · exact ih p.2 (.entry hp) (hv.part (.entry hp)) (d.get? p.1)
    | null | bool | int | double | string | binary | list => simp [mergeOver]

theorem merge_merge (he : Regular (.dict e)) (d : Dict Value) : merge (merge d e) e = merge d e := by
  have h := mergeOver_mergeOver he (some (.dict d))
  rw [mergeOver_dict, mergeOver_dict] at h
  exact Value.dict.inj h

theorem merge_self (hd : Regular (.dict d)) : merge d d = d := by
  have h := merge_merge hd ∅
  rwa [merge_empty hd.distinct] at h

/-! ## What merging is -/

/-- The relation that `merge` computes. The third dictionary has the keys of the first and behind
them the new ones of the second. Where both hold a dictionary under a key it holds what the one
makes of the other; everywhere else the second counts if it has the key, and the first if it has
not. -/
inductive Merged : Dict Value → Dict Value → Dict Value → Prop
  | intro {a b m : Dict Value} (keys : m.keys = a.keys ++ b.keys.filter (· ∉ a.keys))
      (old : ∀ k, b.get? k = none → m.get? k = a.get? k)
      (new : ∀ k v, b.get? k = some v → (∀ d e, a.get? k = some (.dict d) → v ≠ .dict e) →
        m.get? k = some v)
      (both : ∀ k d e, a.get? k = some (.dict d) → b.get? k = some (.dict e) →
        ∃ n, m.get? k = some (.dict n))
      (parts : ∀ k d e n, a.get? k = some (.dict d) → b.get? k = some (.dict e) →
        m.get? k = some (.dict n) → Merged d e n) : Merged a b m

theorem keys_merge (he : e.Distinct) (d : Dict Value) :
    (merge d e).keys = d.keys ++ e.keys.filter (· ∉ d.keys) := by
  rw [merge, keys_mergeEntries]
  exact Dict.foldl_addKey_eq he

theorem mergeOver_of_apart {old : Option Value} (h : ∀ d e, old = some (.dict d) → v ≠ .dict e) :
    mergeOver old v = v := by
  cases old with
  | none => exact mergeOver_none v
  | some w =>
    rcases dict_or_apart w v with hapart | ⟨d, e, rfl, rfl⟩
    · exact mergeOver_of_dict?_eq_none hapart
    · exact absurd rfl (h d e rfl)

theorem get?_merge_of_get? (he : e.Distinct) (d : Dict Value) (hv : e.get? k = some v) :
    (merge d e).get? k = some (mergeOver (d.get? k) v) := by
  rw [get?_merge he, hv]

theorem get?_merge_dict {a b d e : Dict Value} (hb : b.Distinct) (hd : a.get? k = some (.dict d))
    (he : b.get? k = some (.dict e)) : (merge a b).get? k = some (.dict (merge d e)) := by
  rw [get?_merge_of_get? hb a he, hd, mergeOver_dict]

theorem merged_merge {b : Dict Value} (hb : Regular (.dict b)) (a : Dict Value) :
    Merged a b (merge a b) := by
  refine .intro (keys_merge hb.distinct a) ?_ ?_ ?_ ?_
  · intro k hk
    rw [get?_merge hb.distinct, hk]
  · intro k v hv hapart
    rw [get?_merge_of_get? hb.distinct a hv, mergeOver_of_apart hapart]
  · intro k d e hd he
    exact ⟨_, get?_merge_dict hb.distinct hd he⟩
  · intro k d e n hd he hn
    rw [get?_merge_dict hb.distinct hd he] at hn
    cases hn
    exact merged_merge (hb.of_get? he) d
termination_by sizeOf b
decreasing_by
  have := (Part.of_get? he).sizeOf_lt
  simp at this
  omega

theorem Merged.eq_merge {a b m : Dict Value} (h : Merged a b m) (ha : Regular (.dict a))
    (hb : Regular (.dict b)) : m = merge a b := by
  induction h with
  | @intro a b m keys old new both _ ih =>
    refine (Dict.ext_get? (distinct_merge ha.distinct b) ?_ fun k => ?_).symm
    · rw [keys_merge hb.distinct, keys]
    cases hv : b.get? k with
    | none => rw [get?_merge hb.distinct, hv, old k hv]
    | some v =>
      by_cases hdicts : ∃ d e, a.get? k = some (.dict d) ∧ v = .dict e
      · obtain ⟨d, e, hd, rfl⟩ := hdicts
        obtain ⟨n, hn⟩ := both k d e hd hv
        rw [get?_merge_dict hb.distinct hd hv, hn, ih k d e n hd hv hn (ha.of_get? hd) (hb.of_get? hv)]
      · have hapart : ∀ d e, a.get? k = some (.dict d) → v ≠ .dict e :=
          fun d e hd he => hdicts ⟨d, e, hd, he⟩
        rw [get?_merge_of_get? hb.distinct a hv, mergeOver_of_apart hapart, new k v hv hapart]

/-- The laws of merging: `Merged` has the one solution `merge`, the empty dictionary changes nothing
on either side, and merging a dictionary again changes nothing. -/
structure MergeLaws (a b : Dict Value) : Prop where
  merged : ∀ m, Merged a b m ↔ m = merge a b
  empty_left : merge ∅ b = b
  empty_right : merge a ∅ = a
  again : merge (merge a b) b = merge a b
  self : merge a a = a

theorem mergeLaws_of_regular {a b : Dict Value} (ha : Regular (.dict a)) (hb : Regular (.dict b)) :
    MergeLaws a b where
  merged m := by
    constructor
    · exact fun h => h.eq_merge ha hb
    · rintro rfl
      exact merged_merge hb a
  empty_left := merge_empty hb.distinct
  empty_right := mergeEntries_eq_self fun p hp => by cases hp
  again := merge_merge hb a
  self := merge_self ha

end Interchange.Value

namespace Interchange.Profile

open Value

def face : Value := .dict ⟨[("family", .int 5), ("style", .int 6)]⟩

def stored : Dict Value :=
  ⟨[("font", .dict ⟨[("size", face), ("name", .int 1)]⟩), ("color", .int 3)]⟩

/-- It brings a number for the size and a dictionary for the name, which are stored the other way
round. -/
def update : Dict Value :=
  ⟨[("width", .int 80), ("font", .dict ⟨[("name", face), ("size", .int 12)]⟩)]⟩

def updated : Dict Value :=
  ⟨[("font", .dict ⟨[("size", .int 12), ("name", face)]⟩), ("color", .int 3), ("width", .int 80)]⟩

theorem regular_face : Regular face :=
  regular_pair (by decide) (regular_atom rfl rfl) (regular_atom rfl rfl)

theorem regular_stored : Regular (.dict stored) := by
  refine regular_pair (by decide) ?_ (regular_atom rfl rfl)
  exact regular_pair (by decide) regular_face (regular_atom rfl rfl)

theorem regular_update : Regular (.dict update) := by
  refine regular_pair (by decide) (regular_atom rfl rfl) ?_
  exact regular_pair (by decide) regular_face (regular_atom rfl rfl)

end Interchange.Profile

namespace Interchange.Value

theorem mergeLaws_of_regular_profile :
    Regular (.dict Profile.stored) ∧ Regular (.dict Profile.update) ∧
    Merged Profile.stored Profile.update Profile.updated ∧
    merge Profile.updated Profile.update = Profile.updated ∧
    merge Profile.stored Profile.stored = Profile.stored := by
  have hlaws := mergeLaws_of_regular Profile.regular_stored Profile.regular_update
  have hupdated : Profile.updated = merge Profile.stored Profile.update := rfl
  refine ⟨Profile.regular_stored, Profile.regular_update, (hlaws.merged _).mpr hupdated, ?_, hlaws.self⟩
  rw [hupdated]
  exact hlaws.again

end Interchange.Value
