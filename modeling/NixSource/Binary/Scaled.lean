import NixSource.Binary.Binary64

/-! Decimals scaled in steps. The digits are rounded first, then multiplied or divided by rounded
powers of ten, and each product and quotient is rounded again, so the last bits of the number may
differ from those of the number nearest to the decimal. -/

namespace NixSource

namespace FloatFormat

def product (f : FloatFormat) (a b : Nat) : Nat :=
  f.nearest ((f.ratio a).1 * (f.ratio b).1) ((f.ratio a).2 * (f.ratio b).2)

/-- The magnitude nearest to the quotient of a finite magnitude and a positive one. -/
def quotient (f : FloatFormat) (a b : Nat) : Nat :=
  f.nearest ((f.ratio a).1 * (f.ratio b).2) ((f.ratio a).2 * (f.ratio b).1)

end FloatFormat

namespace Binary64

/-- The largest exponent of a power of ten that is finite. -/
def largestPower : Nat := 308

def powerOfTen (exponent : Nat) : Nat :=
  FloatFormat.double.ofDecimal ⟨1, exponent⟩

/-- A finite magnitude after division by a power of ten. Where the power itself would be infinite,
the largest one that is not comes first. -/
def scaleDown (magnitude places : Nat) : Nat :=
  if places ≤ largestPower then FloatFormat.double.quotient magnitude (powerOfTen places)
  else if magnitude = 0 then 0
  else
    scaleDown (FloatFormat.double.quotient magnitude (powerOfTen largestPower))
      (places - largestPower)
termination_by places
decreasing_by
  simp only [largestPower] at *
  omega

/-- The number that a decimal comes to step by step, infinite where a step is too large. -/
def scaled (negative : Bool) (d : Decimal) : Binary64 :=
  let digits := FloatFormat.double.ofDecimal ⟨d.digits, 0⟩
  ofMagnitude negative <|
    if d.exponent < 0 then scaleDown digits (-d.exponent).toNat
    else if digits = 0 then 0
    else if d.exponent ≤ (largestPower : Int) then
      FloatFormat.double.product digits (powerOfTen d.exponent.toNat)
    else FloatFormat.double.infinity

end Binary64

end NixSource
