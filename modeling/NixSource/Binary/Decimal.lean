import NixSource.Binary.Format
import NixSource.Text.Numeral

/-! Decimals: the magnitude that a decimal reads as, the shortest decimal that reads as a given
magnitude, and positional text. -/

namespace NixSource

/-- The number `digits × 10 ^ exponent`. -/
structure Decimal where
  digits : Nat
  exponent : Int
deriving DecidableEq, Repr

namespace Decimal

def numerator (d : Decimal) : Nat :=
  if 0 ≤ d.exponent then d.digits * Nat.pow 10 d.exponent.toNat else d.digits

/-- A power of ten, one for a decimal without places. -/
def denominator (d : Decimal) : Nat :=
  if 0 ≤ d.exponent then 1 else Nat.pow 10 (-d.exponent).toNat

/-- For a positive decimal, the exponent of the power of ten just above it: the decimal is below
`10 ^ order` and at least a tenth of that. -/
def order (d : Decimal) : Int :=
  ((decimalText d.digits).length : Int) + d.exponent

def trim (d : Decimal) : Decimal :=
  if d.digits = 0 ∨ d.digits % 10 ≠ 0 then d else trim ⟨d.digits / 10, d.exponent + 1⟩
termination_by d.digits
decreasing_by omega

/-- The digits in positional notation. There is a point only when there are places after it, and
always a digit before it. -/
def text (d : Decimal) : List Char :=
  let ds := decimalText d.digits
  let places := (-d.exponent).toNat
  if 0 ≤ d.exponent then ds ++ List.replicate d.exponent.toNat '0'
  else if places < ds.length then
    ds.take (ds.length - places) ++ '.' :: ds.drop (ds.length - places)
  else '0' :: '.' :: (List.replicate (places - ds.length) '0' ++ ds)

end Decimal

/-- For a positive ratio, the least `k` with `num / den < 10 ^ k`. -/
def decimalOrder (num den : Nat) : Int :=
  let k : Int := ((decimalText num).length : Int) - ((decimalText den).length : Int)
  if num * Nat.pow 10 (-k).toNat < den * Nat.pow 10 k.toNat then k else k + 1

namespace FloatFormat

/-- A bound on the decimal order of numbers between the least positive magnitude and infinity, in
both directions. -/
def orderBound (f : FloatFormat) : Int :=
  (((1 <<< (f.exponentBits - 1)) + f.fractionBits : Nat) : Int)

/-- The magnitude that a decimal reads as: the nearest one. Decimals beyond the bounds of the format
are settled by their order alone. -/
def ofDecimal (f : FloatFormat) (d : Decimal) : Nat :=
  if d.digits = 0 then 0
  else if f.orderBound < d.order then f.infinity
  else if d.order < -f.orderBound then 0
  else f.nearest d.numerator d.denominator

/-- Of the two multiples of `10 ^ place` on either side of a finite magnitude's value, the one that
reads back as the magnitude. If both do, the nearer, and the upper one at equal distance. -/
def readableAt (f : FloatFormat) (magnitude : Nat) (place : Int) : Option Decimal :=
  let num := (f.ratio magnitude).1 * Nat.pow 10 (-place).toNat
  let den := (f.ratio magnitude).2 * Nat.pow 10 place.toNat
  let lower : Decimal := ⟨num / den, place⟩
  let upper : Decimal := ⟨num / den + 1, place⟩
  let upperReads := f.ofDecimal upper == magnitude
  if f.ofDecimal lower == magnitude && (!upperReads || 2 * (num % den) < den) then some lower
  else if upperReads then some upper
  else none

/-- The value of a finite magnitude as a decimal. Halves have finite decimals, so there is one. -/
def exactDecimal (f : FloatFormat) (magnitude : Nat) : Decimal :=
  let m := f.significand magnitude
  let q := f.exponent magnitude
  if 0 ≤ q then ⟨m <<< q.toNat, 0⟩ else ⟨m * Nat.pow 5 (-q).toNat, q⟩

/-- The decimal with the fewest digits that reads back as a finite magnitude, and of those the
nearest to its value. -/
def shortestDecimal (f : FloatFormat) (magnitude : Nat) : Decimal :=
  if magnitude = 0 then ⟨0, 0⟩
  else
    let top := decimalOrder (f.ratio magnitude).1 (f.ratio magnitude).2
    let found := (List.range 17).findSome? fun n => f.readableAt magnitude (top - (n + 1 : Nat))
    (found.getD (f.exactDecimal magnitude)).trim

end FloatFormat

end NixSource
