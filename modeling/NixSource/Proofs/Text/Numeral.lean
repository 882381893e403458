import NixSource.Text.Numeral
import Mathlib.Data.Nat.Digits.Defs

/-! Decimal digits read back: the digits of a number write that number, and as many of them as it
has. -/

namespace NixSource

theorem digitsValue_eq (ds : List Char) : digitsValue ds = Nat.ofDigitChars 10 ds 0 := by
  rw [Nat.ofDigitChars_eq_foldl]
  rfl

theorem digitsValue_append (a b : List Char) :
    digitsValue (a ++ b) = digitsValue a * 10 ^ b.length + digitsValue b := by
  rw [digitsValue_eq, Nat.ofDigitChars_append, Nat.ofDigitChars_eq_ofDigitChars_zero,
    ← digitsValue_eq, ← digitsValue_eq, Nat.mul_comm]

theorem digitsValue_replicate_zero (k : Nat) : digitsValue (List.replicate k '0') = 0 := by
  simp [digitsValue_eq]

@[simp] theorem digitsValue_decimalText (n : Nat) : digitsValue (decimalText n) = n := by
  rw [digitsValue_eq]
  exact Nat.ofDigitChars_ten_toDigits

theorem isDigit_of_mem_decimalText {n : Nat} {c : Char} (h : c ∈ decimalText n) :
    c.isDigit = true :=
  Nat.isDigit_of_mem_toDigits (by decide) (by decide) h

theorem decimalText_ne_nil (n : Nat) : decimalText n ≠ [] :=
  Nat.toDigits_ne_nil

theorem length_decimalText_le_iff (n : Nat) {k : Nat} (h : 0 < k) :
    (decimalText n).length ≤ k ↔ n < 10 ^ k :=
  Nat.length_toDigits_le_iff (by decide) h

theorem lt_ten_pow_length (n : Nat) : n < 10 ^ (decimalText n).length :=
  (length_decimalText_le_iff n Nat.length_toDigits_pos).mp le_rfl

theorem ten_pow_pred_length_le {n : Nat} (h : 0 < n) :
    10 ^ ((decimalText n).length - 1) ≤ n := by
  by_contra hn
  have hpos : 0 < (decimalText n).length - 1 := by
    by_contra hk
    rw [show (decimalText n).length - 1 = 0 by omega] at hn
    omega
  have := (length_decimalText_le_iff n hpos).mpr (by omega)
  omega

end NixSource
