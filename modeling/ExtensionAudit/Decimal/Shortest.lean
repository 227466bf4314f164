import ExtensionAudit.Text.Basic
import ExtensionAudit.Decimal.Binary64

/-!
# Shortest decimals

The decimal text of a binary64 number has the fewest digits that read back to it, and of those the
nearest to it.

* `Decimal.Digits`: a digit string with the place of its decimal point;
* `Decimal.shortest`: the digits of a finite magnitude;
* `Decimal.layout`: positional text for a point near the digits, and an exponent otherwise.
-/

namespace ExtensionAudit.Decimal

/-- The number `0.digits * 10 ^ point`, with no zero at the end of the digits. -/
structure Digits where
  digits : List Char
  point : Int
deriving DecidableEq

/-- The digits of `coefficient * 10 ^ exponent`, without the zeros at the end. -/
def Digits.ofScaled (coefficient : Nat) (exponent : Int) : Digits :=
  let all := Nat.toDigits 10 coefficient
  ⟨(all.reverse.dropWhile (· == '0')).reverse, all.length + exponent⟩

/-- The numbers that round to `significand * 2 ^ exponent`, by their bounds and by whether the bounds
belong to them. -/
structure Interval where
  low : Rat
  high : Rat
  closed : Bool

/-- The rounding interval of a magnitude. Below a power of two the neighbours are twice as close. -/
def Interval.of (significand : Nat) (exponent : Int) : Interval :=
  let unit := (2 : Rat) ^ exponent
  let v := Binary64.value significand exponent
  let below := if significand = Nat.pow 2 52 ∧ Binary64.minExponent < exponent then unit / 4 else unit / 2
  ⟨v - below, v + unit / 2, significand % 2 = 0⟩

/-- Does a number round to the magnitude of the interval? -/
def Interval.holds (i : Interval) (x : Rat) : Bool :=
  if i.closed then i.low ≤ x && x ≤ i.high else i.low < x && x < i.high

/-- The place of the decimal point of a positive number: the least `k` with `x < 10 ^ k`. -/
def pointOf (x : Rat) : Int :=
  let guess : Int := ((Nat.toDigits 10 x.num.toNat).length : Int) - (Nat.toDigits 10 x.den).length
  if (10 : Rat) ^ guess ≤ x then guess + 1 else guess

/-- The better of the two neighbours of `x` on the grid of multiples of `10 ^ exponent`, if one of them
lies in the interval: the nearer one, and of two equally near ones the even one. -/
def nearestOnGrid (i : Interval) (x : Rat) (exponent : Int) : Option Nat :=
  let unit := (10 : Rat) ^ exponent
  let below := (x / unit).floor.toNat
  let lowHit := 0 < below && i.holds ((below : Rat) * unit)
  let highHit := i.holds ((below + 1 : Nat) * unit)
  let twice := 2 * (x / unit - (below : Rat))
  if lowHit && highHit then
    some (if twice < 1 then below else if 1 < twice then below + 1
      else if below % 2 = 0 then below else below + 1)
  else if lowHit then some below
  else if highHit then some (below + 1)
  else none

/-- The fewest digits that read back to a positive magnitude. Seventeen are always enough. -/
def shortest (significand : Nat) (exponent : Int) : Digits :=
  let x := Binary64.value significand exponent
  let i := Interval.of significand exponent
  let k := pointOf x
  let found := (List.range 17).findSome? fun (n : Nat) =>
    (nearestOnGrid i x (k - (n : Int) - 1)).map fun c => Digits.ofScaled c (k - (n : Int) - 1)
  found.getD (Digits.ofScaled significand 0)

/-- How the digits are laid out: positional text is used while the point is past `lowPoint` and not past
`highPoint`; an exponent has a sign and at least `exponentDigits` digits. -/
structure Layout where
  lowPoint : Int
  highPoint : Int
  exponentDigits : Nat

def zeros (n : Nat) : Text := List.replicate n (CodePoint.ofChar '0')

def padded (width n : Nat) : Text :=
  let digits := Text.ofNat n
  zeros (width - digits.length) ++ digits

/-- The text of digits under a layout. A whole number in positional form ends in a point and a zero. -/
def layout (l : Layout) (d : Digits) : Text :=
  let ds : Text := d.digits.map CodePoint.ofChar
  let dot := CodePoint.ofChar '.'
  if l.lowPoint < d.point ∧ d.point ≤ l.highPoint then
    if d.point ≤ 0 then text "0." ++ zeros (-d.point).toNat ++ ds
    else if ds.length ≤ d.point.toNat then ds ++ zeros (d.point.toNat - ds.length) ++ text ".0"
    else ds.take d.point.toNat ++ dot :: ds.drop d.point.toNat
  else
    let exponent := d.point - 1
    let mantissa := if ds.length ≤ 1 then ds else ds.take 1 ++ dot :: ds.drop 1
    mantissa ++ text (if exponent < 0 then "e-" else "e+") ++ padded l.exponentDigits exponent.natAbs

end ExtensionAudit.Decimal
