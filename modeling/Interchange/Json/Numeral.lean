import Interchange.Json.Basic

/-! # Written numbers

A `Numeral` is a number as its digits; `Numeral.read` gives it a value. Digits that fit 64 bits form
the significand (`significandBound`); whole digits past that raise the exponent, and decimal places
past that are dropped.
-/

namespace Interchange.Json

/-- A number as it is written. Digits are given by their values. -/
structure Numeral where
  negative : Bool
  whole : List Nat
  fraction : Option (List Nat)
  /-- The sign of the exponent and its digits. -/
  exponent : Option (Bool × List Nat)
  deriving Repr, DecidableEq

namespace Numeral

/-- Appends digits to `n` while the result stays within `bound`; the digits left over follow. -/
def accumulate (bound n : Nat) : List Nat → Nat × List Nat
  | [] => (n, [])
  | d :: ds => if n * 10 + d ≤ bound then accumulate bound (n * 10 + d) ds else (n, d :: ds)

/-- The largest significand that `accumulate` is given. -/
def significandBound : Nat := 0xffffffffffffffff

/-- The largest magnitude of an exponent that is read exactly. -/
def exponentBound : Nat := 0x7fffffff

/-- A sum of exponents, kept within 32 bits; `exponentBound` holds for what is written. -/
def clampExponent (e : Int) : Int := max (-0x80000000) (min e 0x7fffffff)

def toDouble (neg : Bool) (significand : Nat) (exponent : Int) : Except SyntaxError Number :=
  match Double.ofDecimal neg significand exponent with
  | some d => .ok (.double d)
  | none => .error .numberOutOfRange

/-- Applies a written exponent; one past all bounds leaves only zero, or is out of range. -/
def withExponent (neg : Bool) (significand : Nat) (scale : Int) :
    Option (Bool × List Nat) → Except SyntaxError Number
  | none => toDouble neg significand scale
  | some (negExp, digits) =>
    match accumulate exponentBound 0 digits with
    | (e, []) => toDouble neg significand (clampExponent (if negExp then scale - e else scale + e))
    | (_, _ :: _) =>
      if significand ≠ 0 ∧ negExp = false then .error .numberOutOfRange
      else .ok (.double (if neg then Double.zero.neg else Double.zero))

/-- A negative integer must fit 64 bits, and zero has a sign only as a double. -/
def toInteger (neg : Bool) (n : Nat) : Number :=
  if neg then
    if n = 0 ∨ 0x8000000000000000 < n then .double (Double.ofInt n).neg else .int (-n)
  else .int n

/-- The number a numeral stands for: an integer when it has no point and no exponent and fits. -/
def read (n : Numeral) : Except SyntaxError Number :=
  let (significand, overflow) := accumulate significandBound 0 n.whole
  match n.fraction, n.exponent, overflow with
  | none, none, [] => .ok (toInteger n.negative significand)
  | none, exponent, overflow => withExponent n.negative significand overflow.length exponent
  | some places, exponent, overflow =>
    let (significand, dropped) := accumulate significandBound significand places
    let scale : Int := (overflow.length : Int) - (places.length - dropped.length : Nat)
    withExponent n.negative significand scale exponent

end Numeral

end Interchange.Json
