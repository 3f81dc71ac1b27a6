import Interchange.Proofs.Normal

/-! # Integers of 64 bits on their way through doubles

Past 32 bits an integer is written as the nearest double (`int64Value`), and comes back as the whole
number that this double is, or as the largest integer where the double lies above it (`settled`).
What comes back is written as before (`int64Value_settled`), so only the first pass may round.
-/

namespace Interchange

namespace Double

/-! ## The nearest double -/

theorem le_roundQuotient {a num den : Nat} (hden : 0 < den) (h : a * den ≤ num) :
    a ≤ roundQuotient num den := by
  have ha : a ≤ num / den := (Nat.le_div_iff_mul_le hden).mpr h
  simp only [roundQuotient]
  split_ifs <;> omega

theorem roundQuotient_le {b num den : Nat} (hden : 0 < den) (h : num ≤ b * den) :
    roundQuotient num den ≤ b := by
  have hb : num / den ≤ b := Nat.div_le_of_le_mul (by rwa [Nat.mul_comm])
  by_cases hr : num % den = 0
  · rwa [roundQuotient, hr, if_pos (by omega)]
  · -- with a remainder the quotient lies strictly below the bound
    have hb' : num / den < b := by
      refine Nat.lt_of_le_of_ne hb fun heq => hr ?_
      have hsum := Nat.div_add_mod num den
      rw [heq, Nat.mul_comm] at hsum
      omega
    simp only [roundQuotient]
    split_ifs <;> omega

/-- The whole number that the nearest double is: bits behind the first 53 are rounded off by
`roundQuotient`. -/
def nearest (n : Nat) : Nat := roundQuotient n (2 ^ (n.log2 - 52)) * 2 ^ (n.log2 - 52)

/-- The same as `nearest` for a number with a sign. -/
def nearestInt (n : Int) : Int := if n < 0 then -(nearest n.natAbs : Int) else nearest n.natAbs

theorem two_pow_le_nearest {n : Nat} (h0 : n ≠ 0) : 2 ^ n.log2 ≤ nearest n := by
  have hsplit : 2 ^ n.log2 = 2 ^ (n.log2 - (n.log2 - 52)) * 2 ^ (n.log2 - 52) := by
    rw [← Nat.pow_add]
    congr 1
    omega
  rw [nearest, hsplit]
  refine Nat.mul_le_mul_right _ (le_roundQuotient (Nat.two_pow_pos _) ?_)
  rw [← hsplit]
  exact Nat.log2_self_le h0

theorem nearest_le_two_pow {n k : Nat} (h0 : n ≠ 0) (h : n ≤ 2 ^ k) : nearest n ≤ 2 ^ k := by
  have hlog : n.log2 ≤ k :=
    (Nat.pow_le_pow_iff_right (by decide)).mp (Nat.le_trans (Nat.log2_self_le h0) h)
  have hsplit : 2 ^ k = 2 ^ (k - (n.log2 - 52)) * 2 ^ (n.log2 - 52) := by
    rw [← Nat.pow_add]
    congr 1
    omega
  rw [nearest, hsplit]
  refine Nat.mul_le_mul_right _ (roundQuotient_le (Nat.two_pow_pos _) ?_)
  rwa [← hsplit]

theorem exact_nearest {n : Nat} (h0 : n ≠ 0) : Exact (nearest n) := by
  have hle := nearest_le_two_pow h0 (Nat.le_of_lt Nat.lt_log2_self)
  rcases Nat.lt_or_eq_of_le hle with hlt | heq
  · refine ⟨n.log2 - 52, ⟨_, Nat.mul_comm _ _⟩, Nat.lt_of_lt_of_le hlt ?_⟩
    exact Nat.pow_le_pow_right (by decide) (by omega)
  · rw [heq]
    exact ⟨n.log2 + 1, Nat.dvd_refl _, Nat.pow_lt_pow_right (by decide) (by omega)⟩

theorem nearest_of_log2_lt {n : Nat} (h : n.log2 < 52) : nearest n = n := by
  have hz : n.log2 - 52 = 0 := by omega
  have hround := roundQuotient_mul n Nat.one_pos
  rw [Nat.mul_one] at hround
  rw [nearest, hz, Nat.pow_zero, Nat.mul_one, hround]

/-- The encoding of a number of 53 bits or more: its mantissa is rounded, and may overflow into the
exponent. -/
theorem quotientBits_of_log2 {n m : Nat} (h0 : n ≠ 0) (hn : n < 2 ^ 64) (hlog : 52 ≤ n.log2)
    (hm : roundQuotient n (2 ^ (n.log2 - 52)) = m) (hle : m ≤ 2 * hiddenBit) :
    quotientBits n 1 = (n.log2 + 1022) * hiddenBit + m := by
  have hlt : n.log2 < 64 := (Nat.log2_lt h0).mpr hn
  have hneg : (-((n.log2 : Int) - 52)).toNat = 0 := by omega
  have hpos : ((n.log2 : Int) - 52).toNat = n.log2 - 52 := by omega
  have hplace : ((n.log2 : Int) - 52 + 1074).toNat = n.log2 + 1022 := by omega
  simp only [quotientBits, if_neg h0, lastPlace_one h0, hneg, hpos, hplace, Nat.shiftLeft_eq,
    Nat.one_mul, Nat.pow_zero, Nat.mul_one, hm]
  rw [← hiddenBit_eq]
  refine Nat.min_eq_left ?_
  simp only [hiddenBit, infinityBits] at hle ⊢
  omega

theorem quotientBits_nearest {n : Nat} (h0 : n ≠ 0) (hn : n ≤ 2 ^ 63) :
    quotientBits (nearest n) 1 = quotientBits n 1 := by
  by_cases hlog : n.log2 < 52
  · rw [nearest_of_log2_lt hlog]
  have hbound : nearest n < 2 ^ 64 := Nat.lt_of_le_of_lt (nearest_le_two_pow h0 hn) (by decide)
  have hmant : 2 ^ (n.log2 + 1) = 2 * hiddenBit * 2 ^ (n.log2 - 52) := by
    rw [hiddenBit_eq, ← Nat.pow_succ', ← Nat.pow_add]
    congr 1
    omega
  have hlow := two_pow_le_nearest h0
  have hhigh := nearest_le_two_pow h0 (Nat.le_of_lt Nat.lt_log2_self)
  have hne : nearest n ≠ 0 := Nat.ne_of_gt (Nat.lt_of_lt_of_le (Nat.two_pow_pos _) hlow)
  have hm : roundQuotient n (2 ^ (n.log2 - 52)) ≤ 2 * hiddenBit := by
    rw [nearest, hmant] at hhigh
    exact Nat.le_of_mul_le_mul_right hhigh (Nat.two_pow_pos _)
  rw [quotientBits_of_log2 h0 (by omega) (by omega) rfl hm]
  rcases Nat.lt_or_eq_of_le hhigh with h | h
  · -- the number of bits stays the same
    have hsame : (nearest n).log2 = n.log2 := (Nat.log2_eq_iff hne).mpr ⟨hlow, h⟩
    have hm' : roundQuotient n (2 ^ (n.log2 - 52)) < 2 * hiddenBit := by
      rw [nearest, hmant] at h
      exact Nat.lt_of_mul_lt_mul_right h
    have hz : 52 - n.log2 = 0 := by omega
    rw [quotientBits_one hne hbound hm' (by rw [hsame, hz, Nat.pow_zero, Nat.mul_one, nearest]), hsame]
  · -- the number is rounded up to the next power of two
    have hnext : (nearest n).log2 = n.log2 + 1 := by rw [h, Nat.log2_two_pow]
    have hm' : roundQuotient n (2 ^ (n.log2 - 52)) = 2 * hiddenBit := by
      rw [nearest, hmant] at h
      exact Nat.eq_of_mul_eq_mul_right (Nat.two_pow_pos _) h
    have hz : 52 - (n.log2 + 1) = 0 := by omega
    have hpow : nearest n * 2 ^ (52 - (nearest n).log2) = hiddenBit * 2 ^ ((nearest n).log2 - 52) := by
      rw [hnext, hz, Nat.pow_zero, Nat.mul_one, h, hiddenBit_eq, ← Nat.pow_add]
      congr 1
      omega
    rw [quotientBits_one hne hbound (by simp only [hiddenBit]; omega) hpow, hnext, hm']
    ring

theorem natAbs_nearestInt (n : Int) : (nearestInt n).natAbs = nearest n.natAbs := by
  rw [nearestInt]
  split <;> simp

theorem nearestInt_neg_iff (n : Int) : nearestInt n < 0 ↔ n < 0 := by
  rw [nearestInt]
  split
  · have h := two_pow_le_nearest (n := n.natAbs) (by omega)
    have := Nat.two_pow_pos n.natAbs.log2
    omega
  · omega

@[simp] theorem nearestInt_zero : nearestInt 0 = 0 := by decide

/-- A number and its `nearestInt` are the same double. -/
theorem ofInt_nearestInt {n : Int} (h : n.natAbs ≤ 2 ^ 63) : ofInt (nearestInt n) = ofInt n := by
  by_cases h0 : n = 0
  · rw [h0, nearestInt_zero]
  · simp only [ofInt, ofQuotient, nearestInt_neg_iff, natAbs_nearestInt,
      quotientBits_nearest (Int.natAbs_ne_zero.mpr h0) h]

theorem natAbs_nearestInt_le {n : Int} (h : n.natAbs ≤ 2 ^ 63) : (nearestInt n).natAbs ≤ 2 ^ 63 := by
  by_cases h0 : n = 0
  · rw [h0, nearestInt_zero]
    decide
  · rw [natAbs_nearestInt]
    exact nearest_le_two_pow (Int.natAbs_ne_zero.mpr h0) h

theorem toInt?_ofInt_eq {n : Int} (h : n.natAbs ≤ 2 ^ 63) : (ofInt n).toInt? = some (nearestInt n) := by
  by_cases h0 : n = 0
  · rw [h0]
    decide
  rw [← ofInt_nearestInt h]
  refine toInt?_ofInt ?_ (Nat.lt_of_le_of_lt (natAbs_nearestInt_le h) (by decide))
  rw [natAbs_nearestInt]
  exact exact_nearest (Int.natAbs_ne_zero.mpr h0)

theorem nearestInt_of_exact {n : Int} (he : Exact n.natAbs) (h : n.natAbs ≤ 2 ^ 63) : nearestInt n = n := by
  have heq := toInt?_ofInt_eq h
  rw [toInt?_ofInt he (by omega)] at heq
  exact (Option.some.inj heq).symm

/-- The double of the largest integer of 64 bits lies above it. -/
theorem nearestInt_max : nearestInt 0x7fffffffffffffff = 0x8000000000000000 := by
  have hmax := toInt?_ofInt_max
  rw [toInt?_ofInt_eq (by decide)] at hmax
  exact Option.some.inj hmax

theorem exact_of_le {n : Nat} (h : n ≤ 2 ^ 53) : Exact n := by
  rcases Nat.lt_or_eq_of_le h with hlt | rfl
  · exact ⟨0, Nat.one_dvd n, hlt⟩
  · exact ⟨53, Nat.dvd_refl _, by decide⟩

/-- Rounding leads no number across `2 ^ 53`, up to which all numbers are kept. -/
theorem two_pow_le_natAbs_nearestInt {n : Int} (h : 2 ^ 53 ≤ n.natAbs) :
    2 ^ 53 ≤ (nearestInt n).natAbs := by
  have h0 : n.natAbs ≠ 0 := by omega
  rw [natAbs_nearestInt]
  refine Nat.le_trans (Nat.pow_le_pow_right (by decide) ?_) (two_pow_le_nearest h0)
  exact (Nat.le_log2 h0).mpr h

end Double

open Plan Populate Serialize

/-! ## Integers of 64 bits -/

theorem natAbs_toInt_le (n : Int64) : n.toInt.natAbs ≤ 2 ^ 63 := by
  have := n.le_toInt
  have := n.toInt_lt
  omega

/-- What an integer becomes once it is written by `int64Value` and read: rounded, and the largest
one if that lies above it. -/
def settled (n : Int64) : Int64 := .ofInt (min (Double.nearestInt n.toInt) 0x7fffffffffffffff)

theorem toInt_settled (n : Int64) :
    (settled n).toInt = min (Double.nearestInt n.toInt) 0x7fffffffffffffff := by
  have := Double.natAbs_nearestInt_le (natAbs_toInt_le n)
  refine Int64.toInt_ofInt_of_le ?_ ?_ <;> omega

theorem settled_of_exact {n : Int64} (h : Double.Exact n.toInt.natAbs) : settled n = n := by
  have := n.toInt_lt
  rw [← Int64.toInt_inj, toInt_settled, Double.nearestInt_of_exact h (natAbs_toInt_le n)]
  omega

theorem settled_maxValue : settled .maxValue = .maxValue := by
  rw [← Int64.toInt_inj, toInt_settled]
  change min (Double.nearestInt 0x7fffffffffffffff) _ = 0x7fffffffffffffff
  rw [Double.nearestInt_max]
  rfl

theorem integral?_ofInt_eq (n : Int64) : integral? (.ofInt n.toInt) = some (settled n) := by
  have := Double.natAbs_nearestInt_le (natAbs_toInt_le n)
  rw [integral?, Double.toInt?_ofInt_eq (natAbs_toInt_le n)]
  exact if_pos ⟨by omega, by omega⟩

theorem int64?_int64Value_eq (n : Int64) : int64? (int64Value n) = some (settled n) := by
  rcases int64Value_cases n with ⟨m, hm, hw⟩ | hw
  · have := m.le_toInt
    have := m.toInt_lt
    have hexact : Double.Exact n.toInt.natAbs := Double.exact_of_le (by omega)
    rw [hw, int64?, hm, Int64.ofInt_toInt, settled_of_exact hexact]
  · rw [hw, int64?, integral?_ofInt_eq]

/-- Integers past 53 bits, and so past 32, are written as doubles. -/
theorem int64Value_of_le {n : Int64} (h : 2 ^ 53 ≤ n.toInt.natAbs) :
    int64Value n = .double (.ofInt n.toInt) := by
  rcases int64Value_cases n with ⟨m, hm, -⟩ | hw
  · have := m.le_toInt
    have := m.toInt_lt
    omega
  · exact hw

theorem ofInt_toInt_settled (n : Int64) : Double.ofInt (settled n).toInt = Double.ofInt n.toInt := by
  have hround := Double.ofInt_nearestInt (natAbs_toInt_le n)
  have hle := Double.natAbs_nearestInt_le (natAbs_toInt_le n)
  rw [toInt_settled]
  by_cases hmax : Double.nearestInt n.toInt ≤ 0x7fffffffffffffff
  · rw [Int.min_eq_left hmax, hround]
  · have htop : Double.nearestInt n.toInt = 0x8000000000000000 := by omega
    rw [← hround, htop]
    decide

theorem int64Value_settled (n : Int64) : int64Value (settled n) = int64Value n := by
  by_cases h : n.toInt.natAbs ≤ 2 ^ 53
  · rw [settled_of_exact (Double.exact_of_le h)]
  · have hlow := Double.two_pow_le_natAbs_nearestInt (n := n.toInt) (by omega)
    have hs : 2 ^ 53 ≤ (settled n).toInt.natAbs := by
      rw [toInt_settled]
      omega
    rw [int64Value_of_le hs, int64Value_of_le (by omega), ofInt_toInt_settled]

/-- The number that a value denotes; infinities and NaN denote none. -/
def Value.number? : Value → Option ℚ
  | .int n => some n.toInt
  | .double d => if d.isFinite then some d.value else none
  | _ => none

theorem Value.number?_double {d : Double} {n : Int} (h : d.toInt? = some n) :
    (Value.double d).number? = some (n : ℚ) := by
  obtain ⟨finite, value⟩ := Double.toInt?_eq_some_iff.mp h
  rw [number?, if_pos finite, value]

theorem number?_int64Value (n : Int64) :
    (int64Value n).number? = some (Double.nearestInt n.toInt : ℚ) := by
  rcases int64Value_cases n with ⟨m, hm, hw⟩ | hw
  · have := m.le_toInt
    have := m.toInt_lt
    rw [hw, Value.number?, hm, Double.nearestInt_of_exact (Double.exact_of_le (by omega)) (by omega)]
  · rw [hw, Value.number?_double (Double.toInt?_ofInt_eq (natAbs_toInt_le n))]

/-- A whole double that `integral?` reads as an integer is written as the number that it is. -/
theorem number?_of_integral? {d : Double} {n : Int64} (h : integral? d = some n) :
    (int64Value n).number? = some d.value := by
  obtain ⟨k, hk, low, high, hn⟩ := exists_of_integral? h
  have hexact := Double.exact_of_toInt? hk
  have hvalue := (Double.toInt?_eq_some_iff.mp hk).2
  rw [number?_int64Value, hn, hvalue]
  by_cases hmax : k ≤ 0x7fffffffffffffff
  · rw [Int.min_eq_left hmax, Double.nearestInt_of_exact hexact (by omega)]
  · have htop : k = 0x8000000000000000 := by omega
    rw [Int.min_eq_right (by omega), Double.nearestInt_max, htop]

/-! ## Plans of such integers -/

namespace Table

/-- What becomes of numbers under a plan of 64-bit integers, between `Table.convert` and
`int64Value`. -/
structure KeepsInt64 (t : Table) (p : Plan) (key : Option String) : Prop where
  /-- Each integer comes back, rounded at most, and is then written as before. -/
  back : ∀ n : Int64, ∃ m, t.convert p key (int64Value n) = .ok (.int64 m) ∧
    int64Value m = int64Value n ∧
    (n.toInt.natAbs ≤ 2 ^ 53 ∨ n = .minValue ∨ n = .maxValue → m = n)
  /-- The doubles that are taken: whole numbers, up to the first one above all integers. -/
  takes : ∀ d : Double, (∃ x, t.convert p key (.double d) = .ok x) ↔ d.isFinite = true ∧
    ∃ k : Int, d.value = k ∧ -0x8000000000000000 ≤ k ∧ k ≤ 0x8000000000000000
  /-- Each of them is written as the number that it is. -/
  same : ∀ (d : Double) (x : Data), t.convert p key (.double d) = .ok x →
    ∃ n, x = .int64 n ∧ (int64Value n).number? = some d.value

variable {t : Table} {p : Plan}

theorem convert_int64_iff (hs : t.shape p = .int64) {key : Option String} {v : Value} {x : Data} :
    t.convert p key v = .ok x ↔ ∃ n, int64? v = some n ∧ x = .int64 n := by
  rw [convert_eq_ok_iff, read?_leaf (by rw [hs]; rfl), hs, ShapeOf.readLeaf?, Option.map_eq_some_iff]
  simp only [eq_comm]

theorem keepsInt64_of_shape (hs : t.shape p = .int64) (key : Option String) : t.KeepsInt64 p key where
  back := by
    intro n
    refine ⟨settled n, (convert_int64_iff hs).mpr ⟨_, int64?_int64Value_eq n, rfl⟩, int64Value_settled n, ?_⟩
    rintro (h | rfl | rfl)
    · exact settled_of_exact (Double.exact_of_le h)
    · exact settled_of_exact ⟨63, Nat.dvd_refl _, by decide⟩
    · exact settled_maxValue
  takes := by
    intro d
    simp only [convert_int64_iff hs]
    constructor
    · rintro ⟨x, n, hn, -⟩
      obtain ⟨k, hk, low, high, -⟩ := exists_of_integral? hn
      obtain ⟨finite, value⟩ := Double.toInt?_eq_some_iff.mp hk
      exact ⟨finite, k, value, low, high⟩
    · rintro ⟨finite, k, value, low, high⟩
      have hk := Double.toInt?_eq_some_iff.mpr ⟨finite, value⟩
      obtain ⟨n, hn⟩ := Option.isSome_iff_exists.mp (isSome_integral?_iff.mpr ⟨k, hk, low, high⟩)
      exact ⟨_, n, hn, rfl⟩
  same := by
    intro d x hx
    obtain ⟨n, hn, rfl⟩ := (convert_int64_iff hs).mp hx
    exact ⟨n, rfl, number?_of_integral? hn⟩

end Table

/-! ## A stamp -/

namespace Stamp

/-- The only entry is a number of 64 bits. -/
def table : Table where
  entries := [⟨"Stamp", .inline .int64⟩]
  required := Table.ranked_of_checkRequired (by decide)
  variant := Table.ranked_of_checkVariants (by decide)

/-- Zero with a sign, and the doubles at both ends. -/
def edges : List (Double × Int) :=
  [(Double.zero.neg, 0), (.ofInt 0x8000000000000000, 0x8000000000000000),
    (.ofInt (-0x8000000000000000), -0x8000000000000000)]

theorem shape_stamp : table.shape (.named 0) = .int64 := by
  have hplan : table.plan 0 = .inline .int64 := rfl
  rw [Table.shape, hplan, Table.shape]

theorem toInt?_of_mem_edges : ∀ e ∈ edges, e.1.toInt? = some e.2 ∧
    -0x8000000000000000 ≤ e.2 ∧ e.2 ≤ 0x8000000000000000 := by
  decide

end Stamp

theorem Table.keepsInt64_of_shape_stamp : Stamp.table.shape (.named 0) = .int64 ∧
    ∀ e ∈ Stamp.edges, ∃ n, Stamp.table.convert (.named 0) none (.double e.1) = .ok (.int64 n) ∧
      (int64Value n).number? = some (e.2 : ℚ) := by
  have hkeeps := keepsInt64_of_shape Stamp.shape_stamp none
  refine ⟨Stamp.shape_stamp, fun e he => ?_⟩
  obtain ⟨hint, low, high⟩ := Stamp.toInt?_of_mem_edges e he
  obtain ⟨finite, value⟩ := Double.toInt?_eq_some_iff.mp hint
  obtain ⟨x, hx⟩ := (hkeeps.takes e.1).mpr ⟨finite, e.2, value, low, high⟩
  obtain ⟨n, rfl, hn⟩ := hkeeps.same e.1 x hx
  exact ⟨n, hx, by rw [hn, value]⟩

end Interchange
