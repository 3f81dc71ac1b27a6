/-! # Double-precision numbers by their IEEE 754 binary64 bits

A finite double is a whole `mantissa` times two to its `exponent`, up to sign. Every operation
(`ofInt`, `mul`, `div`) is exact integer arithmetic on these two, followed by one rounding to the
nearest double, ties to even (`ofQuotient`).
-/

namespace Interchange

structure Double where
  bits : UInt64
  deriving Repr, DecidableEq, Inhabited

namespace Double

def zero : Double := ⟨0⟩

/-- The leading bit of a normal mantissa, which `fraction` leaves out. -/
def hiddenBit : Nat := 0x10000000000000

def negative (d : Double) : Bool := decide (0x8000000000000000 ≤ d.bits.toNat)

/-- The exponent field, 2047 for infinities and NaN. -/
def biased (d : Double) : Nat := (d.bits.toNat >>> 52) % 2048

def fraction (d : Double) : Nat := d.bits.toNat % hiddenBit

def isFinite (d : Double) : Bool := d.biased != 2047

def isNaN (d : Double) : Bool := d.biased == 2047 && d.fraction != 0

/-- The whole number of a finite double: its magnitude is `mantissa * 2 ^ exponent`. -/
def mantissa (d : Double) : Nat := if d.biased = 0 then d.fraction else hiddenBit + d.fraction

def exponent (d : Double) : Int := (max d.biased 1 : Nat) - 1075

def isZero (d : Double) : Bool := d.biased == 0 && d.fraction == 0

/-- Equality of numbers: a NaN differs from everything, the two zeros are equal. -/
def same (a b : Double) : Bool := !a.isNaN && !b.isNaN && (a == b || (a.isZero && b.isZero))

def neg (d : Double) : Double := ⟨d.bits ^^^ 0x8000000000000000⟩

/-- The quotient `num / den` as a whole number, rounded to nearest, ties to even. -/
def roundQuotient (num den : Nat) : Nat :=
  let q := num / den
  let r := num % den
  if 2 * r < den then q
  else if den < 2 * r then q + 1
  else if q % 2 = 0 then q else q + 1

/-- The bits of infinity. -/
def infinityBits : Nat := 0x7ff0000000000000

/-- The unit in the last place of the double nearest to `num / den`, as a power of two: the
mantissa gets 53 bits, fewer below the smallest normal number. -/
def lastPlace (num den : Nat) : Int :=
  let e : Int := (num.log2 : Int) - den.log2
  let e := if num <<< (-e).toNat < den <<< e.toNat then e - 1 else e
  max (e - 52) (-1074)

/-- The bits of the double nearest to `num / den`, ties to even; infinity when it is too large. -/
def quotientBits (num den : Nat) : Nat :=
  if num = 0 then 0
  else
    let e := lastPlace num den
    let m := roundQuotient (num <<< (-e).toNat) (den <<< e.toNat)
    min ((e + 1074).toNat <<< 52 + m) infinityBits

def ofQuotient (neg : Bool) (num den : Nat) : Double :=
  let d : Double := ⟨UInt64.ofNat (quotientBits num den)⟩
  if neg then d.neg else d

/-- The double nearest to `n`, ties to even. -/
def ofInt (n : Int) : Double := ofQuotient (decide (n < 0)) n.natAbs 1

/-- With `denominator`, the magnitude of a finite double as a fraction. -/
def numerator (d : Double) : Nat := d.mantissa <<< d.exponent.toNat

def denominator (d : Double) : Nat := 1 <<< (-d.exponent).toNat

/-- The product of two finite doubles. -/
def mul (a b : Double) : Double :=
  ofQuotient (a.negative != b.negative) (a.numerator * b.numerator) (a.denominator * b.denominator)

/-- The quotient of two finite doubles, the second one not zero. -/
def div (a b : Double) : Double :=
  ofQuotient (a.negative != b.negative) (a.numerator * b.denominator) (a.denominator * b.numerator)

/-- The whole number that a double is, if it is one; the inverse of `ofInt` where that is exact. -/
def toInt? (d : Double) : Option Int :=
  if d.isFinite && d.numerator % d.denominator == 0 then
    let n : Int := (d.numerator / d.denominator : Nat)
    some (if d.negative then -n else n)
  else none

end Double

end Interchange
