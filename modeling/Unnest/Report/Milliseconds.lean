import Unnest.Text.Basic

/-!
# Milliseconds

A number of nanoseconds is shown in milliseconds with three decimals. The quotient is taken among
the numbers of 53 significant binary digits, to which the nanoseconds are brought first; every
rounding goes to the nearest number, a tie to the even one.

* `roundDiv`: a quotient rounded to a whole number;
* `roundBits`: a quotient rounded to a number of binary digits;
* `milliseconds`: the text.
-/

namespace Unnest

/-- `a / b` rounded to the nearest whole number, a tie to the even one. -/
def roundDiv (a b : Nat) : Nat :=
  let q := a / b
  let twice := 2 * (a % b)
  if twice < b then q else if b < twice then q + 1 else q + q % 2

/-- A ratio of natural numbers. -/
structure Ratio where
  num : Nat
  den : Nat
deriving DecidableEq, Repr

def Ratio.scale (r : Ratio) (e : Int) : Ratio :=
  if 0 ≤ e then { r with num := r.num <<< e.toNat } else { r with den := r.den <<< (-e).toNat }

/-- The exponent by which a positive ratio has to be scaled to get `bits` digits in front of the
point: its value is then at least `2 ^ (bits - 1)` and below `2 ^ bits`. -/
def Ratio.shift (r : Ratio) (bits : Nat) : Int :=
  let e : Int := bits - r.num.log2 + r.den.log2
  let scaled := r.scale e
  if scaled.num < scaled.den <<< bits then e else e - 1

/-- The ratio rounded to `bits` significant binary digits. -/
def roundBits (bits : Nat) (r : Ratio) : Ratio :=
  if r.num = 0 then ⟨0, 1⟩
  else
    let e := r.shift bits
    let scaled := r.scale e
    Ratio.scale ⟨roundDiv scaled.num scaled.den, 1⟩ (-e)

/-- A number of thousandths with three decimals. -/
def thousandths (n : Nat) : Text :=
  let digits := Text.decimal (n % 1000)
  Text.decimal (n / 1000) ++ lit "." ++ List.replicate (3 - digits.length) (chr '0') ++ digits

/-- The number of significant binary digits of a measured time. -/
def precisionBits : Nat := 53

def milliseconds (nanoseconds : Nat) : Text :=
  let total := roundBits precisionBits ⟨nanoseconds, 1⟩
  let ratio := roundBits precisionBits { total with den := total.den * 1000000 }
  thousandths (roundDiv (ratio.num * 1000) ratio.den)

end Unnest
