import Interchange.Proofs.Dict
import Interchange.Proofs.Reading

/-! # Members of enumerations and their codes

As long as there are codes for all members, `ofName` finds a name exactly if a member has it
(`isNone_ofName_iff`), and the code leads back to the name (`nameOf_ofName`).
-/

namespace Interchange

open Plan

namespace EnumValue

theorem toNat_member {i : Nat} (h : i < 0xffffffff) : (member i).code.toNat = i + 1 := by
  rw [member, UInt32.toNat_add, UInt32.toNat_ofNat']
  change (i % 0x100000000 + 1) % 0x100000000 = i + 1
  omega

theorem isNone_iff {e : EnumValue} : e.isNone = true ↔ e.code = 0 := by
  rw [isNone, beq_iff_eq, none, EnumValue.mk.injEq]

theorem isNone_member {i : Nat} (h : i < 0xffffffff) : (member i).isNone = false := by
  rw [Bool.eq_false_iff, ne_eq, isNone_iff, ← UInt32.toNat_inj, toNat_member h]
  simp

theorem ordinal?_member {i : Nat} (h : i < 0xffffffff) : (member i).ordinal? = some i := by
  have hc : (member i).code ≠ 0 := fun hc => by
    have := isNone_member h
    rw [isNone_iff.mpr hc] at this
    cases this
  rw [ordinal?, if_neg hc, toNat_member h, Nat.add_sub_cancel]

end EnumValue

namespace Plan.EnumPlan

variable {e : EnumPlan} {s : String}

theorem ofName_eq_none (h : s ∉ e.members) : e.ofName s = .none := by
  unfold ofName
  split
  · rename_i i hi
    obtain ⟨hlt, hs, -⟩ := List.findIdx?_eq_some_iff_getElem.mp hi
    rw [beq_iff_eq] at hs
    exact absurd (hs ▸ List.getElem_mem hlt) h
  · rfl

theorem exists_ofName (h : s ∈ e.members) : ∃ i, e.members[i]? = some s ∧ e.ofName s = .member i := by
  unfold ofName
  split
  · rename_i i hi
    obtain ⟨hlt, hs, -⟩ := List.findIdx?_eq_some_iff_getElem.mp hi
    rw [beq_iff_eq] at hs
    exact ⟨i, by rw [List.getElem?_eq_getElem hlt, hs], rfl⟩
  · rename_i hn
    simpa using List.findIdx?_eq_none_iff.mp hn s h

/-- A name is found by `ofName` exactly if a member has it. -/
theorem isNone_ofName_iff (he : e.members.length < 0xffffffff) :
    (e.ofName s).isNone = true ↔ s ∉ e.members := by
  constructor
  · intro hn hs
    obtain ⟨i, hi, hm⟩ := exists_ofName hs
    have hlt := (List.getElem?_eq_some_iff.mp hi).1
    rw [hm, EnumValue.isNone_member (by omega)] at hn
    cases hn
  · intro hs
    rw [ofName_eq_none hs]
    rfl

/-- The member that `ofName` finds has the name. -/
theorem nameOf_ofName (he : e.members.length < 0xffffffff) (hs : s ∈ e.members) :
    e.nameOf (e.ofName s) = s := by
  obtain ⟨i, hi, hm⟩ := exists_ofName hs
  have hlt := (List.getElem?_eq_some_iff.mp hi).1
  rw [hm, nameOf, EnumValue.ordinal?_member (by omega)]
  simp [hi]

theorem isSome_member?_iff (he : e.members.length < 0xffffffff) :
    (e.member? (.string s)).isSome = true ↔ s ∈ e.members := by
  rw [← not_iff_not, ← isNone_ofName_iff he]
  simp only [member?, Value.string?, Option.bind_some]
  split <;> simp_all

end Plan.EnumPlan

end Interchange
