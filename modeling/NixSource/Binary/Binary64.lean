import NixSource.Binary.Decimal

/-! Floating-point numbers of 64 bits, the finite ones among them, which alone have a literal, and
numbers of 32 bits with their widening. -/

namespace NixSource

/-- A floating-point number of 64 bits. Equality is equality of bits, so the zeros differ and a NaN
equals itself. -/
structure Binary64 where
  bits : UInt64
deriving DecidableEq

namespace Binary64

/-- The bits without the sign. -/
def magnitude (x : Binary64) : Nat :=
  x.bits.toNat % FloatFormat.double.signBit

/-- Whether the sign bit is set, which it also is in the negative zero. -/
def isNegative (x : Binary64) : Bool :=
  FloatFormat.double.signBit ≤ x.bits.toNat

def isFinite (x : Binary64) : Bool :=
  x.magnitude < FloatFormat.double.infinity

def isNaN (x : Binary64) : Bool :=
  FloatFormat.double.infinity < x.magnitude

/-- The number that stands for no number. -/
def nan : Binary64 :=
  ⟨0x7FF8000000000000⟩

def ofMagnitude (negative : Bool) (magnitude : Nat) : Binary64 :=
  ⟨UInt64.ofNat (if negative then FloatFormat.double.signBit + magnitude else magnitude)⟩

/-- The number nearest to a decimal with the given sign, infinite past the largest one. -/
def ofDecimal (negative : Bool) (d : Decimal) : Binary64 :=
  ofMagnitude negative (FloatFormat.double.ofDecimal d)

/-- Equality as numbers: a NaN equals nothing, the two zeros equal each other. -/
def numericEq (x y : Binary64) : Bool :=
  !x.isNaN && !y.isNaN && (x == y || (x.magnitude == 0 && y.magnitude == 0))

/-- The shortest positional decimal that reads back as the same number, after a minus sign if the
sign bit is set; words for what is not finite. -/
def text (x : Binary64) : List Char :=
  if x.isNaN then ['N', 'a', 'N']
  else
    let digits :=
      if x.isFinite then (FloatFormat.double.shortestDecimal x.magnitude).text
      else ['i', 'n', 'f']
    if x.isNegative then '-' :: digits else digits

end Binary64

structure FiniteFloat where
  value : Binary64
  finite : value.isFinite = true
deriving DecidableEq

namespace FiniteFloat

def ofBinary64? (x : Binary64) : Option FiniteFloat :=
  if h : x.isFinite = true then some ⟨x, h⟩ else none

/-- The literal of a finite number. A literal without a point would be an integer, so there always
is one; a number with its sign bit set is parenthesised, to stay one element of a list. -/
def literal (x : FiniteFloat) : List Char :=
  let digits := x.value.text
  let digits := if digits.contains '.' then digits else digits ++ ['.', '0']
  if x.value.isNegative then '(' :: (digits ++ [')']) else digits

end FiniteFloat

structure Binary32 where
  bits : UInt32
deriving DecidableEq

namespace Binary32

def magnitude (x : Binary32) : Nat :=
  x.bits.toNat % FloatFormat.single.signBit

def isNegative (x : Binary32) : Bool :=
  FloatFormat.single.signBit ≤ x.bits.toNat

/-- The number of 64 bits that is nearest to the shortest decimal of `x`, so that what was written
as 0.1 stays 0.1. Infinities and the sign of zero are kept, and every NaN becomes one NaN. -/
def widen (x : Binary32) : Binary64 :=
  if FloatFormat.single.infinity < x.magnitude then
    .nan
  else if x.magnitude = FloatFormat.single.infinity then
    .ofMagnitude x.isNegative FloatFormat.double.infinity
  else
    .ofDecimal x.isNegative (FloatFormat.single.shortestDecimal x.magnitude)

end Binary32

end NixSource
