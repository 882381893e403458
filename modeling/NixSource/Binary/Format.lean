/-! Binary floating point: interchange formats, the value that a magnitude stands for, and the
magnitude nearest to a ratio of natural numbers. A magnitude is a bit pattern without its sign bit.
Magnitudes ascend with the values they stand for; above the finite ones comes infinity, above
infinity the NaNs. -/

namespace NixSource

/-- The natural number nearest to `num / den`, the even one of two that are equally near. -/
def nearestNat (num den : Nat) : Nat :=
  let q := num / den
  let r := num % den
  if 2 * r < den then q
  else if den < 2 * r then q + 1
  else if q % 2 = 0 then q
  else q + 1

theorem nearestNat_mul (n : Nat) {den : Nat} (h : 0 < den) : nearestNat (n * den) den = n := by
  simp [nearestNat, Nat.mul_div_cancel n h, h]

/-- The exponent `e` with `2 ^ e ≤ num / den < 2 ^ (e + 1)`, for a positive ratio. -/
def binaryOrder (num den : Nat) : Int :=
  let e : Int := (num.log2 : Int) - (den.log2 : Int)
  if 0 ≤ e then
    if den <<< e.toNat ≤ num then e else e - 1
  else
    if den ≤ num <<< (-e).toNat then e else e - 1

/-- An interchange format, given by the bits it stores of a significand and of an exponent. From
high to low a pattern holds the sign, the exponent and the significand. -/
structure FloatFormat where
  fractionBits : Nat
  exponentBits : Nat

namespace FloatFormat

def double : FloatFormat := ⟨52, 11⟩

def single : FloatFormat := ⟨23, 8⟩

/-- The least pattern with its sign bit set; every magnitude is below it. -/
def signBit (f : FloatFormat) : Nat :=
  1 <<< (f.fractionBits + f.exponentBits)

/-- The magnitude of infinity: every bit of the exponent set, none of the significand. -/
def infinity (f : FloatFormat) : Nat :=
  ((1 <<< f.exponentBits) - 1) <<< f.fractionBits

/-- The exponent of the last place of the smallest numbers, `2 ^ minExponent` being the least
positive one. -/
def minExponent (f : FloatFormat) : Int :=
  2 - ((1 <<< (f.exponentBits - 1) : Nat) : Int) - (f.fractionBits : Int)

/-- The integer significand of a finite magnitude. The leading bit is implied unless the exponent
field is zero. -/
def significand (f : FloatFormat) (magnitude : Nat) : Nat :=
  let fraction := magnitude % (1 <<< f.fractionBits)
  if magnitude >>> f.fractionBits = 0 then fraction else (1 <<< f.fractionBits) + fraction

def exponent (f : FloatFormat) (magnitude : Nat) : Int :=
  f.minExponent + ((magnitude >>> f.fractionBits - 1 : Nat) : Int)

def ratio (f : FloatFormat) (magnitude : Nat) : Nat × Nat :=
  let m := f.significand magnitude
  let q := f.exponent magnitude
  if 0 ≤ q then (m <<< q.toNat, 1) else (m, 1 <<< (-q).toNat)

/-- The magnitude nearest to the ratio in lowest terms `num / den`, the even one of two that are
equally near, and infinity past the largest finite one. The exponent of the last place is the one
that leaves a significand of full length, but never below the format's least. A significand that
rounds up to one bit more carries into the exponent by itself. -/
def nearestReduced (f : FloatFormat) (num den : Nat) : Nat :=
  let full := binaryOrder num den - (f.fractionBits : Int)
  let q := if full < f.minExponent then f.minExponent else full
  let m := if 0 ≤ q then nearestNat num (den <<< q.toNat) else nearestNat (num <<< (-q).toNat) den
  let magnitude := ((q - f.minExponent).toNat <<< f.fractionBits) + m
  if magnitude < f.infinity then magnitude else f.infinity

/-- The magnitude nearest to `num / den`. Only the value of the ratio counts, not how it is
written. -/
def nearest (f : FloatFormat) (num den : Nat) : Nat :=
  if num = 0 then 0 else f.nearestReduced (num / num.gcd den) (den / num.gcd den)

end FloatFormat

end NixSource
