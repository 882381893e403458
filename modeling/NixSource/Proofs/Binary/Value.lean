import NixSource.Binary.Decimal
import NixSource.Proofs.Text.Numeral
import Mathlib.Algebra.Order.Field.Power
import Mathlib.Data.Rat.Cast.Order
import Mathlib.Tactic.FieldSimp
import Mathlib.Tactic.Linarith
import Mathlib.Tactic.Positivity
import Mathlib.Tactic.Ring

/-! The rational numbers that decimals and finite magnitudes stand for. What a decimal reads as
depends on its value only, however many zeros it is written with. -/

namespace NixSource

/-- A number lies between powers of consecutive exponents for one exponent only. -/
theorem exponent_unique {b x : ℚ} (hb : 1 < b) {m n : ℤ} (hm : b ^ m ≤ x) (hm' : x < b ^ (m + 1))
    (hn : b ^ n ≤ x) (hn' : x < b ^ (n + 1)) : m = n := by
  have h1 := (zpow_lt_zpow_iff_right₀ hb).mp (hm.trans_lt hn')
  have h2 := (zpow_lt_zpow_iff_right₀ hb).mp (hn.trans_lt hm')
  omega

namespace Decimal

/-- The number that a decimal stands for. -/
def value (d : Decimal) : ℚ :=
  d.digits * 10 ^ d.exponent

theorem denominator_pos (d : Decimal) : 0 < d.denominator := by
  unfold denominator
  split
  · exact Nat.one_pos
  · exact Nat.pow_pos (by decide)

theorem numerator_div_denominator (d : Decimal) :
    (d.numerator : ℚ) / d.denominator = d.value := by
  unfold numerator denominator value
  split
  · next h =>
    obtain ⟨k, hk⟩ := Int.eq_ofNat_of_zero_le h
    simp [hk]
  · next h =>
    obtain ⟨k, hk⟩ : ∃ k : ℕ, d.exponent = -(k : ℤ) := ⟨(-d.exponent).toNat, by omega⟩
    simp [hk, div_eq_mul_inv]

theorem value_eq_zero_iff (d : Decimal) : d.value = 0 ↔ d.digits = 0 := by
  have : (10 : ℚ) ^ d.exponent ≠ 0 := zpow_ne_zero _ (by norm_num)
  simp [value, this]

/-- The order of a positive decimal is that of its value. -/
theorem order_bounds {d : Decimal} (h : 0 < d.digits) :
    (10 : ℚ) ^ (d.order - 1) ≤ d.value ∧ d.value < 10 ^ (d.order - 1 + 1) := by
  have hlen : 1 ≤ (decimalText d.digits).length := Nat.length_toDigits_pos
  have hlow : (10 : ℚ) ^ ((decimalText d.digits).length - 1) ≤ d.digits := by
    exact_mod_cast ten_pow_pred_length_le h
  have hhigh : (d.digits : ℚ) < 10 ^ (decimalText d.digits).length := by
    exact_mod_cast lt_ten_pow_length d.digits
  have hpos : (0 : ℚ) < 10 ^ d.exponent := by positivity
  constructor
  · rw [show d.order - 1 = (((decimalText d.digits).length - 1 : ℕ) : ℤ) + d.exponent by
      unfold order; omega, zpow_add₀ (by norm_num), zpow_natCast]
    exact mul_le_mul_of_nonneg_right hlow hpos.le
  · rw [show d.order - 1 + 1 = ((decimalText d.digits).length : ℤ) + d.exponent by
      unfold order; omega, zpow_add₀ (by norm_num), zpow_natCast]
    exact mul_lt_mul_of_pos_right hhigh hpos

theorem order_eq_of_value_eq {d d' : Decimal} (h : 0 < d.digits) (h' : 0 < d'.digits)
    (hv : d.value = d'.value) : d.order = d'.order := by
  have hb := order_bounds h
  have hb' := order_bounds h'
  rw [hv] at hb
  have := exponent_unique (by norm_num) hb.1 hb.2 hb'.1 hb'.2
  omega

@[simp] theorem value_trim (d : Decimal) : d.trim.value = d.value := by
  fun_induction trim d with
  | case1 d h => rfl
  | case2 d h ih =>
    have hd : d.digits = d.digits / 10 * 10 := by omega
    rw [ih]
    simp only [value]
    rw [zpow_add_one₀ (by norm_num), mul_comm (10 ^ d.exponent : ℚ), ← mul_assoc]
    congr 1
    exact_mod_cast hd.symm

end Decimal

namespace FloatFormat

/-- The number that a finite magnitude stands for. -/
def value (f : FloatFormat) (magnitude : Nat) : ℚ :=
  f.significand magnitude * 2 ^ f.exponent magnitude

theorem value_exactDecimal (f : FloatFormat) (m : Nat) : (f.exactDecimal m).value = f.value m := by
  unfold exactDecimal value Decimal.value
  dsimp only
  split
  · next h =>
    obtain ⟨k, hk⟩ := Int.eq_ofNat_of_zero_le h
    simp [hk, Nat.shiftLeft_eq]
  · next h =>
    obtain ⟨k, hk⟩ : ∃ k : ℕ, f.exponent m = -(k : ℤ) := ⟨(-f.exponent m).toNat, by omega⟩
    have h10 : (10 : ℚ) ^ k = 5 ^ k * 2 ^ k := by rw [← mul_pow]; norm_num
    rw [hk]
    simp [h10]
    field_simp

/-- Ratios of equal value have the same lowest terms. -/
theorem lowest_terms_eq {a b c d : Nat} (hb : 0 < b) (hd : 0 < d) (h : a * d = c * b) :
    a / a.gcd b = c / c.gcd d ∧ b / a.gcd b = d / c.gcd d := by
  obtain ⟨g, a', b', hg, hab, rfl, rfl⟩ := Nat.exists_coprime' (Nat.gcd_pos_of_pos_right a hb)
  obtain ⟨k, c', d', hk, hcd, rfl, rfl⟩ := Nat.exists_coprime' (Nat.gcd_pos_of_pos_right c hd)
  have hcross : a' * d' = c' * b' := by
    apply Nat.eq_of_mul_eq_mul_left (Nat.mul_pos hg hk)
    linarith
  have ha : a' = c' := Nat.dvd_antisymm
    (hab.dvd_of_dvd_mul_right ⟨d', hcross.symm⟩) (hcd.dvd_of_dvd_mul_right ⟨b', hcross⟩)
  have hb' : b' = d' := Nat.dvd_antisymm
    (hab.symm.dvd_of_dvd_mul_left ⟨c', by rw [hcross, mul_comm]⟩)
    (hcd.symm.dvd_of_dvd_mul_left ⟨a', by rw [← hcross, mul_comm]⟩)
  subst ha hb'
  simp [Nat.gcd_mul_right, hab.gcd_eq_one, Nat.mul_div_cancel _ hg, Nat.mul_div_cancel _ hk]

theorem nearest_congr (f : FloatFormat) {num den num' den' : Nat} (hd : 0 < den) (hd' : 0 < den')
    (h : (num : ℚ) / den = num' / den') : f.nearest num den = f.nearest num' den' := by
  have hcross : num * den' = num' * den := by
    have hq : (den : ℚ) ≠ 0 := by positivity
    have hq' : (den' : ℚ) ≠ 0 := by positivity
    exact_mod_cast (div_eq_div_iff hq hq').mp h
  have hzero : num = 0 ↔ num' = 0 := by
    constructor <;> rintro rfl <;> simpa [hd.ne', hd'.ne'] using hcross
  obtain ⟨h1, h2⟩ := lowest_terms_eq hd hd' hcross
  simp only [nearest, hzero, h1, h2]

/-- What a decimal reads as depends on its value only. -/
theorem ofDecimal_congr (f : FloatFormat) {d d' : Decimal} (h : d.value = d'.value) :
    f.ofDecimal d = f.ofDecimal d' := by
  have hzero : d.digits = 0 ↔ d'.digits = 0 := by
    rw [← Decimal.value_eq_zero_iff, h, Decimal.value_eq_zero_iff]
  by_cases hd : d.digits = 0
  · simp [ofDecimal, hd, hzero.mp hd]
  · have hd' : d'.digits ≠ 0 := fun h0 => hd (hzero.mpr h0)
    have horder := Decimal.order_eq_of_value_eq (Nat.pos_of_ne_zero hd) (Nat.pos_of_ne_zero hd') h
    have hnearest := f.nearest_congr d.denominator_pos d'.denominator_pos
      (by rw [Decimal.numerator_div_denominator, Decimal.numerator_div_denominator, h])
    simp only [ofDecimal, hd, hd', horder, hnearest]

end FloatFormat

end NixSource
