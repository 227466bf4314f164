/-!
# Rounding to binary64

A positive rational rounds to the nearest number with a significand of 53 bits; a tie goes to the even
significand, and what is too large becomes infinite.

* `Binary64.Magnitude`, `Binary64.ofRat`;
* `Binary64.ofDecimal`: the magnitude of a decimal numeral of any length.
-/

namespace ExtensionAudit.Binary64

/-- The absolute value of a binary64 number: `significand * 2 ^ exponent`, or infinity. -/
inductive Magnitude where
  | finite (significand : Nat) (exponent : Int)
  | infinite
deriving DecidableEq

/-- The least exponent, that of the numbers next to zero. -/
def minExponent : Int := -1074

/-- The greatest exponent of a finite number. -/
def maxExponent : Int := 971

/-- The natural number nearest to a nonnegative rational, a tie going to the even one. -/
def roundHalfEven (x : Rat) : Nat :=
  let below := x.floor.toNat
  let twice := 2 * (x - (below : Rat))
  if twice < 1 then below
  else if 1 < twice then below + 1
  else if below % 2 = 0 then below else below + 1

/-- The exponent at which `x` has a significand of 53 bits, but not below the least one. -/
def exponentFor (x : Rat) : Int :=
  let guess : Int := (Nat.log2 x.num.toNat : Int) - (Nat.log2 x.den : Int) - 53
  let exact := if (2 : Rat) ^ (53 : Nat) ≤ x / (2 : Rat) ^ guess then guess + 1 else guess
  max minExponent exact

/-- The magnitude nearest to a nonnegative rational. -/
def ofRat (x : Rat) : Magnitude :=
  let e := exponentFor x
  let m := roundHalfEven (x / (2 : Rat) ^ e)
  let (m, e) := if m = Nat.pow 2 53 then (Nat.pow 2 52, e + 1) else (m, e)
  if maxExponent < e then .infinite else .finite m e

def value (significand : Nat) (exponent : Int) : Rat := (significand : Rat) * (2 : Rat) ^ exponent

/-- The magnitude of `digits * 10 ^ exponent`. Beyond three hundred and ten places on either side the
answer is clear without computing the power. -/
def ofDecimal (digits : Nat) (exponent : Int) : Magnitude :=
  let places : Int := (Nat.toDigits 10 digits).length + exponent
  if digits = 0 ∨ places < -330 then .finite 0 minExponent
  else if 310 < places then .infinite
  else ofRat ((digits : Rat) * (10 : Rat) ^ exponent)

end ExtensionAudit.Binary64
