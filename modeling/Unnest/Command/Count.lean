import Unnest.Text.Basic

/-!
# Counts

A positive number given as text: decimal digits only, and no more than a 32-bit integer holds. The
digits are read in words of 64 bits.

* `Count.ofText`: the number, or what is wrong with the text.
-/

namespace Unnest.Count

/-- What can be wrong with a count. -/
inductive Problem
  | missing
  | notADigit
  | tooLarge
  | zero
deriving DecidableEq, Repr

def Problem.message : Problem → Text
  | missing => lit "expected a number"
  | notADigit => lit "invalid character in number"
  | tooLarge => lit "number out of range"
  | zero => lit "expected a positive number"

/-- The largest count. -/
def limit : Int64 := 2147483647

/-- The number behind a digit, with `value` in front of it. -/
def pushDigit (value : Int64) (b : UInt8) : Int64 := value * 10 + .ofNat (b - chr '0').toNat

/-- Reads digits behind the number `value`; of two problems the one further to the front is
reported. -/
def readDigits (value : Int64) : Text → Except Problem Int64
  | [] => .ok value
  | b :: bs =>
    if !isDigit b then .error .notADigit
    else if limit < pushDigit value b then .error .tooLarge
    else readDigits (pushDigit value b) bs

/-- The positive number that a text stands for. -/
def ofText (s : Text) : Except Problem Nat := do
  if s.isEmpty then throw .missing
  let value ← readDigits 0 s
  if value = 0 then throw .zero
  return value.toNatClampNeg

end Unnest.Count
