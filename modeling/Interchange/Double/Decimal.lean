import Interchange.Double.Basic

/-! # Decimal text of doubles

Reading a significand with a power of ten (`ofDecimal`), and the shortest digits that read back as a
given double (`shortest`).
-/

namespace Interchange.Double

/-- The double nearest to a power of ten. -/
def tenPow (n : Nat) : Double := ofQuotient false (Nat.pow 10 n) 1

/-- Scales `d`, not negative, by a power of ten: one multiplication or division where the power is
itself a double, divisions by the largest such power before that. `none` when the result is too
large. -/
def scaleTen (d : Double) (exponent : Int) : Option Double :=
  if exponent.natAbs ≤ 308 then
    if 0 ≤ exponent then
      let r := d.mul (tenPow exponent.natAbs)
      if r.isFinite then some r else none
    else some (d.div (tenPow exponent.natAbs))
  else if d.isZero then some d
  else if 0 ≤ exponent then none
  else scaleTen (d.div (tenPow 308)) (exponent + 308)
termination_by exponent.natAbs
decreasing_by omega

/-- Reads `significand * 10 ^ exponent` by scaling (`scaleTen`), so the last digits may be rounded
twice. -/
def ofDecimal (neg : Bool) (significand : Nat) (exponent : Int) : Option Double :=
  (scaleTen (ofInt significand) exponent).map fun d => if neg then d.neg else d

/-- A decimal number `digits * 10 ^ exponent`. -/
structure Decimal where
  digits : Nat
  exponent : Int
  deriving Repr, DecidableEq

/-- The comparison of `a * 10 ^ p` with `b * 2 ^ q / 4`. -/
def compareScaled (a : Nat) (p : Int) (b : Nat) (q : Int) : Ordering :=
  compare ((4 * a * Nat.pow 10 p.toNat) <<< (-q).toNat) ((b * Nat.pow 10 (-p).toNat) <<< q.toNat)

/-- Whether a decimal rounds to the finite double `d`: it lies between the midpoints to its two
neighbours, which belong to `d` when the mantissa is even. -/
def readsBack (d : Double) (c : Decimal) : Bool :=
  let low := if d.fraction = 0 ∧ 1 < d.biased then 4 * d.mantissa - 1 else 4 * d.mantissa - 2
  let high := 4 * d.mantissa + 2
  let even := d.mantissa % 2 = 0
  match compareScaled c.digits c.exponent low d.exponent, compareScaled c.digits c.exponent high d.exponent with
  | .lt, _ => false
  | _, .gt => false
  | .eq, _ | _, .eq => even
  | .gt, .lt => true

/-- The power of ten of the leading digit of a positive finite double. -/
def leadingPower (d : Double) : Int :=
  let guess : Int := ((d.mantissa.log2 + d.exponent : Int) * 1233) / 4096
  let up := fun (p : Int) => compareScaled 1 (p + 1) (4 * d.mantissa) d.exponent != .gt
  let down := fun (p : Int) => compareScaled 1 p (4 * d.mantissa) d.exponent == .gt
  if down guess then (if down (guess - 1) then guess - 2 else guess - 1)
  else if up guess then (if up (guess + 1) then guess + 2 else guess + 1)
  else guess

/-- The neighbour of `d` with `n` digits that reads back as `d`: the nearer one of two, and the even
one where `d` lies in the middle. -/
def nearestDigits (d : Double) (n : Nat) : Option Decimal :=
  let p := d.leadingPower - (n - 1 : Nat)
  let low := d.numerator * Nat.pow 10 (-p).toNat / (d.denominator * Nat.pow 10 p.toNat)
  let below : Decimal := ⟨low, p⟩
  let above : Decimal := ⟨low + 1, p⟩
  match readsBack d below, readsBack d above with
  | false, false => none
  | true, false => some below
  | false, true => some above
  | true, true =>
    match compareScaled (2 * low + 1) p (8 * d.mantissa) d.exponent with
    | .lt => some above
    | .gt => some below
    | .eq => some (if low % 2 = 0 then below else above)

/-- The fewest digits that read back as a positive finite double: the first of `nearestDigits` up to
seventeen. -/
def shortest (d : Double) : Decimal :=
  match (List.range 17).findSome? fun i => nearestDigits d (i + 1) with
  | some c => c
  | none => ⟨d.mantissa, 0⟩

end Interchange.Double
