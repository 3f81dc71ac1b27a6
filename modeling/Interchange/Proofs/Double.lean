import Interchange.Double.Basic
import Mathlib.Algebra.Order.Field.Power
import Mathlib.Algebra.Order.Ring.Rat
import Mathlib.Data.Rat.Cast.Defs
import Mathlib.Tactic.FieldSimp
import Mathlib.Tactic.Linarith
import Mathlib.Tactic.NormNum
import Mathlib.Tactic.Ring

/-! # Doubles as rational numbers

The number that a finite double is (`value`), and whole numbers as doubles. A whole number that is a
double (`Exact`), with at most 64 bits, is found again after conversion (`toInt?_ofInt`).
-/

namespace Interchange.Double

/-- The number that a finite double is, from its `mantissa` and `exponent`. -/
def value (d : Double) : ℚ := (if d.negative then -1 else 1) * (d.mantissa * 2 ^ d.exponent)

/-! ## Whole numbers -/

theorem denominator_pos (d : Double) : 0 < d.denominator := by
  rw [denominator, Nat.shiftLeft_eq, Nat.one_mul]
  exact Nat.two_pow_pos _

theorem numerator_div_denominator (d : Double) :
    (d.numerator / d.denominator : ℚ) = d.mantissa * 2 ^ d.exponent := by
  rw [numerator, denominator, Nat.shiftLeft_eq, Nat.shiftLeft_eq]
  rcases Int.le_total 0 d.exponent with h | h
  · obtain ⟨n, hn⟩ := Int.eq_ofNat_of_zero_le h
    rw [hn]
    simp
  · obtain ⟨n, hn⟩ := Int.eq_ofNat_of_zero_le (Int.neg_nonneg.mpr h)
    have he : d.exponent = -(n : ℤ) := by omega
    rw [he]
    simp [div_eq_mul_inv]

/-- The magnitude of a double is whole if and only if `denominator` divides `numerator`. -/
theorem magnitude_eq_iff (d : Double) (n : Nat) :
    d.numerator % d.denominator = 0 ∧ d.numerator / d.denominator = n ↔
      (d.mantissa * 2 ^ d.exponent : ℚ) = n := by
  rw [← numerator_div_denominator, div_eq_iff (by exact_mod_cast (denominator_pos d).ne')]
  constructor
  · rintro ⟨hm, rfl⟩
    have := Nat.div_add_mod d.numerator d.denominator
    rw [hm, Nat.add_zero, Nat.mul_comm] at this
    exact_mod_cast this.symm
  · intro h
    have h : d.numerator = n * d.denominator := by exact_mod_cast h
    rw [h, Nat.mul_mod_left, Nat.mul_div_cancel _ (denominator_pos d)]
    exact ⟨rfl, rfl⟩

theorem magnitude_nonneg (d : Double) : (0 : ℚ) ≤ d.mantissa * 2 ^ d.exponent :=
  mul_nonneg (Nat.cast_nonneg _) (zpow_nonneg (by norm_num) _)

/-- A signed magnitude is a whole number if and only if the magnitude is its absolute value and the
sign agrees. -/
theorem sign_mul_eq_iff {neg : Bool} {m : ℚ} (hm : 0 ≤ m) {n : Int} :
    (if neg then -1 else 1) * m = (n : ℚ) ↔ ∃ k : Nat, m = k ∧ n = if neg then -(k : Int) else k := by
  cases neg with
  | false =>
    simp only [Bool.false_eq_true, if_false, one_mul]
    constructor
    · intro h
      have hn : 0 ≤ n := by exact_mod_cast h ▸ hm
      obtain ⟨k, rfl⟩ := Int.eq_ofNat_of_zero_le hn
      exact ⟨k, by exact_mod_cast h, rfl⟩
    · rintro ⟨k, rfl, rfl⟩
      norm_cast
  | true =>
    simp only [if_true, neg_mul, one_mul]
    constructor
    · intro h
      have hn : 0 ≤ -n := by
        have : (0 : ℚ) ≤ -(n : ℚ) := by rw [← h, neg_neg]; exact hm
        exact_mod_cast this
      obtain ⟨k, hk⟩ := Int.eq_ofNat_of_zero_le hn
      refine ⟨k, ?_, by omega⟩
      have hk' : (-n : ℚ) = k := by exact_mod_cast hk
      rw [← hk', ← h, neg_neg]
    · rintro ⟨k, rfl, rfl⟩
      push_cast
      ring

theorem toInt?_eq_some_iff {d : Double} {n : Int} :
    d.toInt? = some n ↔ d.isFinite = true ∧ d.value = n := by
  rw [value, sign_mul_eq_iff (magnitude_nonneg d), toInt?]
  simp only [← magnitude_eq_iff]
  constructor
  · intro h
    split at h
    · rename_i hc
      rw [Bool.and_eq_true, beq_iff_eq] at hc
      cases h
      exact ⟨hc.1, _, ⟨hc.2, rfl⟩, rfl⟩
    · cases h
  · rintro ⟨hf, k, ⟨hm, rfl⟩, rfl⟩
    rw [hf, hm]
    rfl

theorem toInt?_of_isZero {d : Double} (h : d.isZero = true) : d.toInt? = some 0 := by
  rw [isZero, Bool.and_eq_true, beq_iff_eq, beq_iff_eq] at h
  rw [toInt?_eq_some_iff, isFinite, value, mantissa, h.1, h.2, if_pos rfl]
  exact ⟨rfl, by simp⟩

/-! ## Bits -/

/-- The sign bit. -/
def signBit : Nat := 0x8000000000000000

theorem toNat_neg {d : Double} (h : d.bits.toNat < signBit) :
    d.neg.bits.toNat = signBit + d.bits.toNat := by
  replace h : d.bits.toNat < 2 ^ 63 := h
  have hdiv : (d.bits.toNat ^^^ 2 ^ 63) / 2 ^ 63 = 1 := by
    rw [Nat.xor_div_two_pow, Nat.div_eq_of_lt h, Nat.div_self (Nat.two_pow_pos 63), Nat.zero_xor]
  have hmod : (d.bits.toNat ^^^ 2 ^ 63) % 2 ^ 63 = d.bits.toNat := by
    rw [Nat.xor_mod_two_pow, Nat.mod_eq_of_lt h, Nat.mod_self, Nat.xor_zero]
  have hsum := Nat.div_add_mod (d.bits.toNat ^^^ 2 ^ 63) (2 ^ 63)
  rw [hdiv, hmod] at hsum
  rw [neg, UInt64.toNat_xor]
  exact hsum.symm

/-- A finite double by its three fields `negative`, `biased` and `fraction`. -/
theorem fields_of_bits {d : Double} {neg : Bool} {b f : Nat} (hb : b < 2047) (hf : f < hiddenBit)
    (h : d.bits.toNat = (if neg then signBit else 0) + (b * hiddenBit + f)) :
    d.negative = neg ∧ d.biased = b ∧ d.fraction = f := by
  simp only [hiddenBit, signBit] at hf h
  simp only [negative, biased, fraction, hiddenBit, Nat.shiftRight_eq_div_pow]
  cases neg with
  | true =>
    simp only [if_true] at h
    exact ⟨decide_eq_true (by omega), by omega, by omega⟩
  | false =>
    simp only [Bool.false_eq_true, if_false] at h
    exact ⟨decide_eq_false (by omega), by omega, by omega⟩

/-! ## Exact conversion -/

/-- A whole number that is a double: it has at most 53 bits, zeros at its end aside. These are the
numbers that `ofInt` does not round. -/
def Exact (n : Nat) : Prop := ∃ k, 2 ^ k ∣ n ∧ n < 2 ^ (53 + k)

theorem mantissa_lt (d : Double) : d.mantissa < 2 ^ 53 := by
  have hf : d.fraction < hiddenBit := Nat.mod_lt _ (by decide)
  have hh : hiddenBit = 0x10000000000000 := rfl
  rw [mantissa]
  split <;> omega

theorem exists_magnitude {d : Double} {n : Int} (h : d.toInt? = some n) :
    d.numerator = n.natAbs * d.denominator := by
  obtain ⟨-, hv⟩ := toInt?_eq_some_iff.mp h
  obtain ⟨k, hk, hn⟩ := (sign_mul_eq_iff (magnitude_nonneg d)).mp hv
  obtain ⟨hm, hq⟩ := (magnitude_eq_iff d k).mpr hk
  have hnk : n.natAbs = k := by
    rw [hn]
    split <;> simp
  have := Nat.div_add_mod d.numerator d.denominator
  rw [hm, hq, Nat.add_zero, Nat.mul_comm] at this
  rw [hnk, this]

theorem exact_of_toInt? {d : Double} {n : Int} (h : d.toInt? = some n) : Exact n.natAbs := by
  have hmag := exists_magnitude h
  have hlt := mantissa_lt d
  rw [numerator, denominator, Nat.shiftLeft_eq, Nat.shiftLeft_eq, Nat.one_mul] at hmag
  rcases Int.le_total 0 d.exponent with he | he
  · have hz : (-d.exponent).toNat = 0 := by omega
    rw [hz, Nat.pow_zero, Nat.mul_one] at hmag
    refine ⟨d.exponent.toNat, ⟨d.mantissa, by rw [← hmag, Nat.mul_comm]⟩, ?_⟩
    rw [← hmag, Nat.pow_add]
    exact Nat.mul_lt_mul_of_pos_right hlt (Nat.two_pow_pos _)
  · have hz : d.exponent.toNat = 0 := by omega
    rw [hz, Nat.pow_zero, Nat.mul_one] at hmag
    refine ⟨0, by simp, ?_⟩
    have hle : n.natAbs ≤ d.mantissa := by
      rw [hmag]
      exact Nat.le_mul_of_pos_right _ (Nat.two_pow_pos _)
    exact Nat.lt_of_le_of_lt hle hlt

theorem lastPlace_one {n : Nat} (h : n ≠ 0) : lastPlace n 1 = (n.log2 : Int) - 52 := by
  have hlog : Nat.log2 1 = 0 := by decide
  have hle := Nat.log2_self_le h
  have hneg : (-((n.log2 : Int) - 0)).toNat = 0 := by omega
  have hpos : ((n.log2 : Int) - 0).toNat = n.log2 := by omega
  simp only [lastPlace, hlog, Nat.cast_zero, hneg, hpos, Nat.shiftLeft_eq, Nat.pow_zero, Nat.mul_one,
    Nat.one_mul]
  rw [if_neg (Nat.not_lt.mpr hle)]
  omega

theorem roundQuotient_mul (q : Nat) {den : Nat} (h : 0 < den) : roundQuotient (q * den) den = q := by
  rw [roundQuotient, Nat.mul_mod_left, Nat.mul_div_cancel _ h, if_pos (by omega)]

theorem hiddenBit_eq : hiddenBit = 2 ^ 52 := by decide

/-- The mantissa of an exact number: 53 bits, up to the power of two that it lacks or has over. -/
theorem exists_mantissa {n : Nat} (h0 : n ≠ 0) (h : Exact n) :
    ∃ m, hiddenBit ≤ m ∧ m < 2 * hiddenBit ∧ n * 2 ^ (52 - n.log2) = m * 2 ^ (n.log2 - 52) := by
  obtain ⟨k, hdvd, hlt⟩ := h
  have hle := Nat.log2_self_le h0
  have hlt' := Nat.lt_log2_self (n := n)
  have hk : n.log2 - 52 ≤ k := by
    have : n.log2 < 53 + k := (Nat.pow_lt_pow_iff_right (by decide)).mp (Nat.lt_of_le_of_lt hle hlt)
    omega
  obtain ⟨m, hm⟩ : 2 ^ (n.log2 - 52) ∣ n * 2 ^ (52 - n.log2) :=
    Dvd.dvd.mul_right ((Nat.pow_dvd_pow 2 hk).trans hdvd) _
  rw [Nat.mul_comm] at hm
  have hpos : 0 < 2 ^ (n.log2 - 52) := Nat.two_pow_pos _
  have hexp : n.log2 + (52 - n.log2) = 52 + (n.log2 - 52) := by omega
  refine ⟨m, ?_, ?_, by rw [Nat.mul_comm n, hm, Nat.mul_comm]⟩
  · refine Nat.le_of_mul_le_mul_right (c := 2 ^ (n.log2 - 52)) ?_ hpos
    calc hiddenBit * 2 ^ (n.log2 - 52) = 2 ^ (n.log2 + (52 - n.log2)) := by
          rw [hexp, Nat.pow_add, hiddenBit_eq]
      _ = 2 ^ n.log2 * 2 ^ (52 - n.log2) := Nat.pow_add ..
      _ ≤ n * 2 ^ (52 - n.log2) := Nat.mul_le_mul_right _ hle
      _ = m * 2 ^ (n.log2 - 52) := by rw [Nat.mul_comm n, hm, Nat.mul_comm]
  · refine Nat.lt_of_mul_lt_mul_right (a := 2 ^ (n.log2 - 52)) ?_
    calc m * 2 ^ (n.log2 - 52) = n * 2 ^ (52 - n.log2) := by rw [Nat.mul_comm n, hm, Nat.mul_comm]
      _ < 2 ^ (n.log2 + 1) * 2 ^ (52 - n.log2) := Nat.mul_lt_mul_of_pos_right hlt' (Nat.two_pow_pos _)
      _ = 2 * 2 ^ (n.log2 + (52 - n.log2)) := by
          rw [Nat.pow_succ, Nat.pow_add]
          ring
      _ = 2 * hiddenBit * 2 ^ (n.log2 - 52) := by
          rw [hexp, Nat.pow_add, Nat.mul_assoc, hiddenBit_eq]

/-- An `Exact` number of at most 64 bits is encoded by its mantissa and the place of its last bit.
-/
theorem quotientBits_one {n m : Nat} (h0 : n ≠ 0) (hn : n < 2 ^ 64) (hm : m < 2 * hiddenBit)
    (h : n * 2 ^ (52 - n.log2) = m * 2 ^ (n.log2 - 52)) :
    quotientBits n 1 = (n.log2 + 1022) * hiddenBit + m := by
  have hlog : n.log2 < 64 := (Nat.log2_lt h0).mpr hn
  have hneg : (-((n.log2 : Int) - 52)).toNat = 52 - n.log2 := by omega
  have hpos : ((n.log2 : Int) - 52).toNat = n.log2 - 52 := by omega
  have hplace : ((n.log2 : Int) - 52 + 1074).toNat = n.log2 + 1022 := by omega
  simp only [quotientBits, if_neg h0, lastPlace_one h0, hneg, hpos, hplace, Nat.shiftLeft_eq,
    Nat.one_mul, h]
  rw [roundQuotient_mul m (Nat.two_pow_pos _), ← hiddenBit_eq]
  refine Nat.min_eq_left ?_
  simp only [hiddenBit, infinityBits] at hm ⊢
  omega

theorem toNat_ofInt {n : Int} {b : Nat} (h : quotientBits n.natAbs 1 = b) (hb : b < signBit) :
    (ofInt n).bits.toNat = (if decide (n < 0) then signBit else 0) + b := by
  have hbits : (⟨UInt64.ofNat b⟩ : Double).bits.toNat = b := by
    rw [UInt64.toNat_ofNat', Nat.mod_eq_of_lt]
    simp only [signBit] at hb
    omega
  simp only [ofInt, ofQuotient, h]
  split
  · rw [toNat_neg (by rwa [hbits]), hbits]
  · rw [hbits, Nat.zero_add]

theorem isNaN_ofInt (n : Int) : (ofInt n).isNaN = false := by
  have hle : quotientBits n.natAbs 1 ≤ infinityBits := by
    rw [quotientBits]
    split
    · exact Nat.zero_le _
    · exact Nat.min_le_right _ _
  have hbits := toNat_ofInt rfl (Nat.lt_of_le_of_lt hle (by decide))
  generalize quotientBits n.natAbs 1 = b at hle hbits
  rw [infinityBits] at hle
  rw [isNaN, Bool.and_eq_false_imp, beq_iff_eq, bne_eq_false_iff_eq]
  intro hbiased
  generalize decide (n < 0) = neg at hbits
  simp only [biased, fraction, hiddenBit, hbits, Nat.shiftRight_eq_div_pow, signBit] at hbiased ⊢
  cases neg <;> simp only [if_true, Bool.false_eq_true, if_false] at hbiased ⊢ <;> omega

theorem cast_mantissa {n m l : Nat} (h : n * 2 ^ (52 - l) = m * 2 ^ (l - 52)) :
    (m * 2 ^ ((l : Int) - 52) : ℚ) = n := by
  have hq : (n * 2 ^ (52 - l) : ℚ) = m * 2 ^ (l - 52) := by exact_mod_cast h
  have hz : ((l : Int) - 52) = ((l - 52 : Nat) : Int) - ((52 - l : Nat) : Int) := by omega
  rw [hz, zpow_sub₀ (by norm_num), zpow_natCast, zpow_natCast, ← mul_div_assoc, ← hq,
    mul_div_cancel_right₀ _ (by positivity)]

/-- An `Exact` whole number of at most 64 bits is found again. -/
theorem toInt?_ofInt {n : Int} (h : Exact n.natAbs) (hn : n.natAbs < 2 ^ 64) :
    (ofInt n).toInt? = some n := by
  by_cases h0 : n.natAbs = 0
  · rw [Int.natAbs_eq_zero.mp h0]
    decide
  obtain ⟨m, hle, hlt, hm⟩ := exists_mantissa h0 h
  have hlog : n.natAbs.log2 < 64 := (Nat.log2_lt h0).mpr hn
  have hbits := quotientBits_one h0 hn hlt hm
  have hsplit : (n.natAbs.log2 + 1022) * hiddenBit + m =
      (n.natAbs.log2 + 1023) * hiddenBit + (m - hiddenBit) := by
    rw [Nat.add_mul, Nat.add_mul]
    omega
  have hb : (n.natAbs.log2 + 1023) * hiddenBit + (m - hiddenBit) < signBit := by
    simp only [hiddenBit, signBit] at hlt ⊢
    omega
  obtain ⟨hneg, hbiased, hfraction⟩ :=
    fields_of_bits (by omega) (by omega) (toNat_ofInt (hbits.trans hsplit) hb)
  have hmantissa : (ofInt n).mantissa = m := by
    rw [mantissa, hbiased, hfraction, if_neg (by omega)]
    omega
  have hexponent : (ofInt n).exponent = (n.natAbs.log2 : Int) - 52 := by
    rw [exponent, hbiased]
    omega
  rw [toInt?_eq_some_iff]
  refine ⟨?_, ?_⟩
  · rw [isFinite, hbiased, bne_iff_ne]
    omega
  · rw [value, sign_mul_eq_iff (magnitude_nonneg _), hneg, hmantissa, hexponent]
    refine ⟨n.natAbs, cast_mantissa hm, ?_⟩
    split <;> rename_i hs
    · have := of_decide_eq_true hs
      omega
    · have := of_decide_eq_false (Bool.eq_false_iff.mpr hs)
      omega

end Interchange.Double
