/-! Numerals: the texts of natural numbers and integers in base ten, and of naturals in base
sixteen. -/

namespace NixSource

/-- The decimal digits of `n`, without leading zeros. -/
def decimalText (n : Nat) : List Char :=
  Nat.toDigits 10 n

/-- The hexadecimal digits of `n` in lower case, without leading zeros. -/
def hexText (n : Nat) : List Char :=
  Nat.toDigits 16 n

/-- The decimal digits of `i`, after a minus sign when `i` is negative. -/
def integerText (i : Int) : List Char :=
  if i < 0 then '-' :: decimalText i.natAbs else decimalText i.natAbs

def digitValue (c : Char) : Nat :=
  c.toNat - 48

/-- The number that a list of ASCII decimal digits writes. -/
def digitsValue (ds : List Char) : Nat :=
  ds.foldl (fun n d => 10 * n + digitValue d) 0

end NixSource
