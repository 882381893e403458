import NixSource.Proofs.Binary.Value

/-! A finite magnitude is the nearest one to its own value, so its exact decimal reads back, and the
shortest decimal does. -/

namespace NixSource

/-- The comparison that `binaryOrder` makes, between rational numbers. -/
theorem zpow_le_div_iff {num den : Nat} (hd : 0 < den) (e : ℤ) :
    (2 : ℚ) ^ e ≤ num / den ↔
      if 0 ≤ e then den <<< e.toNat ≤ num else den ≤ num <<< (-e).toNat := by
  have hq : (0 : ℚ) < den := by exact_mod_cast hd
  rw [le_div_iff₀ hq]
  split
  · next h =>
    obtain ⟨k, rfl⟩ := Int.eq_ofNat_of_zero_le h
    rw [Int.toNat_natCast, Nat.shiftLeft_eq, zpow_natCast, mul_comm]
    exact_mod_cast Iff.rfl
  · next h =>
    obtain ⟨k, rfl⟩ : ∃ k : ℕ, e = -(k : ℤ) := ⟨(-e).toNat, by omega⟩
    have hk : (0 : ℚ) < 2 ^ k := by positivity
    rw [neg_neg, Int.toNat_natCast, Nat.shiftLeft_eq, zpow_neg, zpow_natCast,
      inv_mul_le_iff₀ hk, mul_comm]
    exact_mod_cast Iff.rfl

theorem zpow_log2_bounds {n : Nat} (h : 0 < n) :
    (2 : ℚ) ^ (n.log2 : ℤ) ≤ n ∧ (n : ℚ) < 2 ^ ((n.log2 : ℤ) + 1) := by
  constructor
  · rw [zpow_natCast]
    exact_mod_cast Nat.log2_self_le h.ne'
  · rw [← Nat.cast_one, ← Nat.cast_add, zpow_natCast]
    exact_mod_cast Nat.lt_log2_self

theorem binaryOrder_bounds {num den : Nat} (hn : 0 < num) (hd : 0 < den) :
    (2 : ℚ) ^ binaryOrder num den ≤ num / den ∧
      (num / den : ℚ) < 2 ^ (binaryOrder num den + 1) := by
  have hq : (0 : ℚ) < den := by exact_mod_cast hd
  obtain ⟨hn1, hn2⟩ := zpow_log2_bounds hn
  obtain ⟨hd1, hd2⟩ := zpow_log2_bounds hd
  set e : ℤ := (num.log2 : ℤ) - den.log2 with he
  have hbelow : (2 : ℚ) ^ (e - 1) ≤ num / den := by
    rw [le_div_iff₀ hq]
    calc (2 : ℚ) ^ (e - 1) * den ≤ 2 ^ (e - 1) * 2 ^ ((den.log2 : ℤ) + 1) := by gcongr
      _ = 2 ^ (num.log2 : ℤ) := by rw [← zpow_add₀ (by norm_num)]; congr 1; omega
      _ ≤ num := hn1
  have habove : (num / den : ℚ) < 2 ^ (e + 1) := by
    rw [div_lt_iff₀ hq]
    calc (num : ℚ) < 2 ^ ((num.log2 : ℤ) + 1) := hn2
      _ = 2 ^ (e + 1) * 2 ^ (den.log2 : ℤ) := by rw [← zpow_add₀ (by norm_num)]; congr 1; omega
      _ ≤ 2 ^ (e + 1) * den := by gcongr
  have horder : binaryOrder num den = if (2 : ℚ) ^ e ≤ num / den then e else e - 1 := by
    simp only [zpow_le_div_iff hd e, binaryOrder, ← he]
    split <;> rfl
  rw [horder]
  split
  · next h => exact ⟨h, habove⟩
  · next h => exact ⟨hbelow, by rw [sub_add_cancel]; exact not_le.mp h⟩

namespace FloatFormat

variable (f : FloatFormat)

/-- The exponent of the last place that rounding chooses for a number of the format is its own. -/
theorem chosen_exponent {num den s : Nat} {e : ℤ} (hd : 0 < den)
    (hv : (num : ℚ) / den = s * 2 ^ e) (hs : 0 < s) (hs' : s < 2 ^ (f.fractionBits + 1))
    (he : f.minExponent ≤ e) (hfull : 2 ^ f.fractionBits ≤ s ∨ e = f.minExponent) :
    (if binaryOrder num den - f.fractionBits < f.minExponent then f.minExponent
      else binaryOrder num den - f.fractionBits) = e := by
  have hn : 0 < num := by
    rcases Nat.eq_zero_or_pos num with rfl | h
    · have : (s : ℚ) * 2 ^ e ≠ 0 := by positivity
      simp [← hv] at this
    · exact h
  obtain ⟨hlow, hhigh⟩ := binaryOrder_bounds hn hd
  rw [hv] at hlow hhigh
  have habove : (s : ℚ) * 2 ^ e < 2 ^ ((f.fractionBits : ℤ) + e + 1) := by
    have h : (s : ℚ) < 2 ^ (f.fractionBits + 1) := by exact_mod_cast hs'
    calc (s : ℚ) * 2 ^ e < 2 ^ (f.fractionBits + 1) * 2 ^ e := by gcongr
      _ = 2 ^ ((f.fractionBits : ℤ) + e + 1) := by
        rw [← zpow_natCast, ← zpow_add₀ (by norm_num)]
        congr 1
        push_cast
        ring
  have hle := (zpow_lt_zpow_iff_right₀ (by norm_num)).mp (hlow.trans_lt habove)
  rcases hfull with hfull | hmin
  · have hbelow : (2 : ℚ) ^ ((f.fractionBits : ℤ) + e) ≤ s * 2 ^ e := by
      have h : (2 : ℚ) ^ f.fractionBits ≤ s := by exact_mod_cast hfull
      rw [zpow_add₀ (by norm_num), zpow_natCast]
      gcongr
    have := exponent_unique (by norm_num) hlow hhigh hbelow habove
    split <;> omega
  · split <;> omega

/-- A ratio that is a number of the format is rounded to that number. -/
theorem nearestReduced_exact {num den s : Nat} {e : ℤ} (hd : 0 < den)
    (hv : (num : ℚ) / den = s * 2 ^ e) (hs : 0 < s) (hs' : s < 2 ^ (f.fractionBits + 1))
    (he : f.minExponent ≤ e) (hfull : 2 ^ f.fractionBits ≤ s ∨ e = f.minExponent)
    (hfin : ((e - f.minExponent).toNat <<< f.fractionBits) + s < f.infinity) :
    f.nearestReduced num den = ((e - f.minExponent).toNat <<< f.fractionBits) + s := by
  have hq : (den : ℚ) ≠ 0 := by positivity
  rw [div_eq_iff hq] at hv
  have hround : (if 0 ≤ e then nearestNat num (den <<< e.toNat)
      else nearestNat (num <<< (-e).toNat) den) = s := by
    split
    · next h =>
      obtain ⟨k, rfl⟩ := Int.eq_ofNat_of_zero_le h
      have hnum : num = s * (den <<< k) := by
        rw [Nat.shiftLeft_eq]
        rw [zpow_natCast, mul_assoc, mul_comm (2 ^ k : ℚ)] at hv
        exact_mod_cast hv
      rw [hnum, Int.toNat_natCast]
      exact nearestNat_mul s (by rw [Nat.shiftLeft_eq]; positivity)
    · next h =>
      obtain ⟨k, rfl⟩ : ∃ k : ℕ, e = -(k : ℤ) := ⟨(-e).toNat, by omega⟩
      have hnum : num <<< k = s * den := by
        rw [Nat.shiftLeft_eq]
        rw [zpow_neg, zpow_natCast, mul_right_comm, eq_mul_inv_iff_mul_eq₀ (by positivity)] at hv
        exact_mod_cast hv
      rw [neg_neg, Int.toNat_natCast, hnum]
      exact nearestNat_mul s hd
  have hq := f.chosen_exponent hd (by rw [div_eq_iff hq, hv]) hs hs' he hfull
  simp only [nearestReduced, hq, hround, hfin, if_true]

theorem nearest_exact {num den s : Nat} {e : ℤ} (hd : 0 < den)
    (hv : (num : ℚ) / den = s * 2 ^ e) (hs : 0 < s) (hs' : s < 2 ^ (f.fractionBits + 1))
    (he : f.minExponent ≤ e) (hfull : 2 ^ f.fractionBits ≤ s ∨ e = f.minExponent)
    (hfin : ((e - f.minExponent).toNat <<< f.fractionBits) + s < f.infinity) :
    f.nearest num den = ((e - f.minExponent).toNat <<< f.fractionBits) + s := by
  obtain ⟨g, a, b, hg, hab, rfl, rfl⟩ := Nat.exists_coprime' (Nat.gcd_pos_of_pos_right num hd)
  have hb : 0 < b := Nat.pos_of_mul_pos_right hd
  have hv' : (a : ℚ) / b = s * 2 ^ e := by
    rw [← hv]
    push_cast
    rw [mul_div_mul_right _ _ (by positivity)]
  have hne : a * g ≠ 0 := by
    rintro h0
    have : (s : ℚ) * 2 ^ e ≠ 0 := by positivity
    rw [← hv, h0] at this
    simp at this
  rw [nearest, if_neg hne, Nat.gcd_mul_right, hab.gcd_eq_one, one_mul, Nat.mul_div_cancel _ hg,
    Nat.mul_div_cancel _ hg]
  exact f.nearestReduced_exact hb hv' hs hs' he hfull hfin

variable {f} {m : Nat}

theorem significand_lt : f.significand m < 2 ^ (f.fractionBits + 1) := by
  have h : m % (1 <<< f.fractionBits) < 2 ^ f.fractionBits := by
    rw [Nat.shiftLeft_eq, one_mul]
    exact Nat.mod_lt _ (by positivity)
  rw [Nat.pow_succ]
  unfold significand
  simp only [Nat.shiftLeft_eq, one_mul] at h ⊢
  split <;> omega

theorem significand_pos (hm : 0 < m) : 0 < f.significand m := by
  unfold significand
  simp only [Nat.shiftLeft_eq, one_mul, Nat.shiftRight_eq_div_pow]
  split
  · next h =>
    have := Nat.div_add_mod m (2 ^ f.fractionBits)
    rw [h] at this
    omega
  · have : 0 < 2 ^ f.fractionBits := by positivity
    omega

/-- A magnitude is put together from the exponent and the significand that it stands for. -/
theorem exponent_add_significand :
    ((f.exponent m - f.minExponent).toNat <<< f.fractionBits) + f.significand m = m := by
  have h := Nat.div_add_mod m (2 ^ f.fractionBits)
  unfold exponent significand
  simp only [Nat.shiftLeft_eq, one_mul, Nat.shiftRight_eq_div_pow, add_sub_cancel_left,
    Int.toNat_natCast]
  rw [mul_comm] at h
  split
  · next h0 => simpa [h0] using h
  · next h0 =>
    obtain ⟨k, hk⟩ := Nat.exists_eq_succ_of_ne_zero h0
    rw [hk, Nat.succ_mul] at h
    simp only [hk, Nat.succ_sub_one]
    omega

theorem full_or_least : 2 ^ f.fractionBits ≤ f.significand m ∨ f.exponent m = f.minExponent := by
  unfold exponent significand
  simp only [Nat.shiftLeft_eq, one_mul]
  split
  · next h => exact .inr (by simp [h])
  · exact .inl (Nat.le_add_right _ _)

/-- A finite magnitude is the nearest one to a ratio of its value. -/
theorem nearest_value (hm : 0 < m) (hfin : m < f.infinity) {num den : Nat} (hd : 0 < den)
    (hv : (num : ℚ) / den = f.value m) : f.nearest num den = m := by
  have := f.nearest_exact hd hv (significand_pos hm) significand_lt
    (by simp [exponent]) full_or_least (by rw [exponent_add_significand]; exact hfin)
  rw [this, exponent_add_significand]

/-- The exponents of finite numbers end where the significand fills the largest of them. -/
theorem exponent_add_fractionBits_lt (hf : 1 < f.exponentBits) (hfin : m < f.infinity) :
    f.exponent m + f.fractionBits < ((1 <<< (f.exponentBits - 1) : Nat) : ℤ) := by
  obtain ⟨k, hk⟩ := Nat.exists_eq_succ_of_ne_zero (Nat.zero_lt_of_lt hf).ne'
  have hpos : 0 < 2 ^ f.fractionBits := by positivity
  have hpow : 2 ^ f.exponentBits = 2 * 2 ^ k := by rw [hk, Nat.pow_succ, Nat.mul_comm]
  have hk2 : 2 ≤ 2 ^ k := Nat.le_self_pow (by omega) 2
  have hfield : m / 2 ^ f.fractionBits < 2 ^ f.exponentBits - 1 := by
    rw [Nat.div_lt_iff_lt_mul hpos]
    simpa [infinity, Nat.shiftLeft_eq] using hfin
  have hk1 : f.exponentBits - 1 = k := by omega
  unfold exponent minExponent
  simp only [Nat.shiftLeft_eq, one_mul, Nat.shiftRight_eq_div_pow, hk1]
  omega

theorem value_lt (hf : 1 < f.exponentBits) (hfin : m < f.infinity) :
    f.value m < 2 ^ ((1 <<< (f.exponentBits - 1) : Nat) : ℤ) := by
  have hs : (f.significand m : ℚ) < 2 ^ (f.fractionBits + 1) := by exact_mod_cast significand_lt
  have he := exponent_add_fractionBits_lt hf hfin
  calc f.value m < 2 ^ (f.fractionBits + 1) * 2 ^ f.exponent m := by unfold value; gcongr
    _ = 2 ^ (f.exponent m + f.fractionBits + 1) := by
      rw [← zpow_natCast, ← zpow_add₀ (by norm_num)]
      congr 1
      push_cast
      ring
    _ ≤ 2 ^ ((1 <<< (f.exponentBits - 1) : Nat) : ℤ) :=
      zpow_le_zpow_right₀ (by norm_num) (by omega)

theorem le_value (hm : 0 < m) : (2 : ℚ) ^ f.minExponent ≤ f.value m := by
  have hs : (1 : ℚ) ≤ f.significand m := by exact_mod_cast significand_pos hm
  calc (2 : ℚ) ^ f.minExponent ≤ 2 ^ f.exponent m :=
      zpow_le_zpow_right₀ (by norm_num) (by simp [exponent])
    _ = 1 * 2 ^ f.exponent m := (one_mul _).symm
    _ ≤ f.value m := by unfold value; gcongr

/-- A decimal with the value of a finite magnitude reads as that magnitude. -/
theorem ofDecimal_of_value_eq (hf : 1 < f.exponentBits) (hm : 0 < m) (hfin : m < f.infinity)
    {d : Decimal} (hv : d.value = f.value m) : f.ofDecimal d = m := by
  have hpos : 0 < f.value m := lt_of_lt_of_le (by positivity) (le_value hm)
  have hd : 0 < d.digits := by
    rw [Nat.pos_iff_ne_zero, ne_eq, ← Decimal.value_eq_zero_iff, hv]
    exact hpos.ne'
  obtain ⟨hlow, hhigh⟩ := Decimal.order_bounds hd
  rw [hv] at hlow hhigh
  have hbound : f.orderBound = ((1 <<< (f.exponentBits - 1) : Nat) : ℤ) + f.fractionBits := by
    simp [orderBound]
  -- Powers of ten are further apart than powers of two.
  have hupper : d.order - 1 < ((1 <<< (f.exponentBits - 1) : Nat) : ℤ) := by
    apply (zpow_lt_zpow_iff_right₀ (show (1 : ℚ) < 10 by norm_num)).mp
    calc (10 : ℚ) ^ (d.order - 1) ≤ f.value m := hlow
      _ < 2 ^ ((1 <<< (f.exponentBits - 1) : Nat) : ℤ) := value_lt hf hfin
      _ ≤ 10 ^ ((1 <<< (f.exponentBits - 1) : Nat) : ℤ) := by
        rw [zpow_natCast, zpow_natCast]
        gcongr
        norm_num
  have hlower : -f.orderBound < d.order - 1 + 1 := by
    apply (zpow_lt_zpow_iff_right₀ (show (1 : ℚ) < 10 by norm_num)).mp
    calc (10 : ℚ) ^ (-f.orderBound) ≤ 2 ^ (-f.orderBound) := by
          rw [hbound, ← Nat.cast_add, zpow_neg, zpow_neg, zpow_natCast, zpow_natCast]
          gcongr
          norm_num
      _ ≤ 2 ^ f.minExponent :=
        zpow_le_zpow_right₀ (by norm_num) (by rw [hbound]; unfold minExponent; omega)
      _ ≤ f.value m := le_value hm
      _ < 10 ^ (d.order - 1 + 1) := hhigh
  have hnearest := nearest_value hm hfin d.denominator_pos
    (by rw [Decimal.numerator_div_denominator, hv])
  simp only [ofDecimal, hd.ne', if_false, hnearest]
  rw [if_neg (by omega), if_neg (by omega)]

theorem ofDecimal_of_readableAt {place : ℤ} {d : Decimal} (h : f.readableAt m place = some d) :
    f.ofDecimal d = m := by
  unfold readableAt at h
  simp only at h
  split at h
  · next hlower =>
    cases h
    simp only [Bool.and_eq_true, beq_iff_eq] at hlower
    exact hlower.1
  · split at h
    · next hupper =>
      cases h
      simpa using hupper
    · cases h

/-- The shortest decimal of a finite magnitude reads back as it. -/
theorem ofDecimal_shortestDecimal (hf : 1 < f.exponentBits) (hfin : m < f.infinity) :
    f.ofDecimal (f.shortestDecimal m) = m := by
  rcases Nat.eq_zero_or_pos m with rfl | hm
  · rfl
  simp only [shortestDecimal, hm.ne', if_false]
  rw [f.ofDecimal_congr (Decimal.value_trim _)]
  generalize hfound : List.findSome? _ (List.range 17) = found
  cases found with
  | none => exact ofDecimal_of_value_eq hf hm hfin (f.value_exactDecimal m)
  | some d =>
    obtain ⟨n, -, hn⟩ := List.exists_of_findSome?_eq_some hfound
    exact ofDecimal_of_readableAt hn

end FloatFormat

end NixSource
