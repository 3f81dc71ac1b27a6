import Interchange.Double.Decimal

/-! # Doubles as text

The text of a double is its `shortest` decimal without zeros at the end (`Decimal.trim`), always
with a point or an exponent (`Decimal.text`).
-/

namespace Interchange.Double

/-- Drops zeros at the end of the digits. -/
def Decimal.trim (c : Decimal) : Decimal :=
  if c.digits = 0 then c
  else if c.digits % 10 = 0 then Decimal.trim ⟨c.digits / 10, c.exponent + 1⟩
  else c
termination_by c.digits
decreasing_by omega

/-- An exponent with its sign, which `toString` leaves out for a positive one. -/
def exponentText (e : Int) : String := if 0 ≤ e then "+" ++ toString e else toString e

def zeros (n : Nat) : String := String.ofList (List.replicate n '0')

/-- Digits with the point after the first `point` of them, `0 < point`. -/
def withPoint (digits : String) (point : Nat) : String :=
  String.ofList (digits.toList.take point) ++ "." ++ String.ofList (digits.toList.drop point)

/-- A decimal is written positionally when its point stands at most sixteen digits in and fewer
than five zeros follow it, and with a signed exponent otherwise. -/
def Decimal.text (c : Decimal) : String :=
  let digits := toString c.digits
  let point : Int := digits.length + c.exponent
  if 0 ≤ c.exponent ∧ point ≤ 16 then digits ++ zeros c.exponent.toNat ++ ".0"
  else if 0 < point ∧ point ≤ 16 then withPoint digits point.toNat
  else if -5 < point ∧ point ≤ 0 then "0." ++ zeros (-point).toNat ++ digits
  else
    let mantissa := if digits.length = 1 then digits else withPoint digits 1
    mantissa ++ "e" ++ exponentText (point - 1)

/-- The text of a finite double. -/
def text (d : Double) : String :=
  let magnitude := if d.isZero then "0.0" else d.shortest.trim.text
  if d.negative then "-" ++ magnitude else magnitude

end Interchange.Double
