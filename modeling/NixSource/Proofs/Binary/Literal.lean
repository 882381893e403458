import NixSource.Binary.Binary64
import NixSource.Proofs.Binary.Shortest

/-! Literals of finite numbers: digits with a point among them, which make a decimal that reads back
as the same number, bit for bit. -/

namespace NixSource

namespace Decimal

/-- The same number with a place after the point at least. -/
def pointed (d : Decimal) : Decimal :=
  if 0 ≤ d.exponent then ⟨d.digits * 10 ^ (d.exponent.toNat + 1), -1⟩ else d

theorem value_pointed (d : Decimal) : d.pointed.value = d.value := by
  unfold pointed
  split
  · next h =>
    obtain ⟨k, hk⟩ := Int.eq_ofNat_of_zero_le h
    simp [value, hk, pow_succ, mul_assoc]
  · rfl

/-- The digits before and after a point, as they write a decimal. -/
structure Spells (d : Decimal) (whole places : List Char) : Prop where
  whole_ne_nil : whole ≠ []
  isDigit_whole : ∀ c ∈ whole, c.isDigit = true
  isDigit_places : ∀ c ∈ places, c.isDigit = true
  digitsValue_eq : digitsValue (whole ++ places) = d.digits
  exponent_eq : d.exponent = -(places.length : ℤ)

theorem isDigit_of_mem_replicate_zero {k : Nat} {c : Char} (h : c ∈ List.replicate k '0') :
    c.isDigit = true := by
  rw [List.eq_of_mem_replicate h]
  rfl

theorem point_not_mem {ds : List Char} (h : ∀ c ∈ ds, c.isDigit = true) : '.' ∉ ds :=
  fun hp => absurd (h _ hp) (by decide)

theorem spells_whole (n k : Nat) :
    Spells ⟨n * 10 ^ (k + 1), -1⟩ (decimalText n ++ List.replicate k '0') ['0'] where
  whole_ne_nil := by simp [decimalText_ne_nil]
  isDigit_whole := fun _ hc =>
    (List.mem_append.mp hc).elim isDigit_of_mem_decimalText isDigit_of_mem_replicate_zero
  isDigit_places := List.forall_mem_singleton.mpr rfl
  digitsValue_eq := by
    rw [List.append_assoc, ← List.replicate_succ', digitsValue_append, digitsValue_replicate_zero,
      digitsValue_decimalText, List.length_replicate, Nat.add_zero]
  exponent_eq := rfl

theorem spells_split {n k : Nat} (h : k < (decimalText n).length) :
    Spells ⟨n, -(k : ℤ)⟩ ((decimalText n).take ((decimalText n).length - k))
      ((decimalText n).drop ((decimalText n).length - k)) where
  whole_ne_nil := by
    rw [ne_eq, List.take_eq_nil_iff]
    exact not_or_intro (by omega) (decimalText_ne_nil n)
  isDigit_whole := fun _ hc => isDigit_of_mem_decimalText (List.mem_of_mem_take hc)
  isDigit_places := fun _ hc => isDigit_of_mem_decimalText (List.mem_of_mem_drop hc)
  digitsValue_eq := by rw [List.take_append_drop, digitsValue_decimalText]
  exponent_eq := by
    rw [List.length_drop, Nat.sub_sub_self (by omega)]

theorem spells_zeros {n k : Nat} (h : (decimalText n).length ≤ k) :
    Spells ⟨n, -(k : ℤ)⟩ ['0']
      (List.replicate (k - (decimalText n).length) '0' ++ decimalText n) where
  whole_ne_nil := List.cons_ne_nil _ _
  isDigit_whole := List.forall_mem_singleton.mpr rfl
  isDigit_places := fun _ hc =>
    (List.mem_append.mp hc).elim isDigit_of_mem_replicate_zero isDigit_of_mem_decimalText
  digitsValue_eq := by
    rw [← List.append_assoc, List.singleton_append, ← List.replicate_succ, digitsValue_append,
      digitsValue_replicate_zero, digitsValue_decimalText, Nat.zero_mul, Nat.zero_add]
  exponent_eq := by
    rw [List.length_append, List.length_replicate, Nat.sub_add_cancel h]

/-- The text of a decimal, with a point in any case, spells the decimal with that place. -/
theorem exists_spells_pointed (d : Decimal) :
    ∃ whole places, d.pointed.Spells whole places ∧
      (if d.text.contains '.' then d.text else d.text ++ ['.', '0']) = whole ++ '.' :: places := by
  obtain ⟨n, exponent⟩ := d
  by_cases h : 0 ≤ exponent
  · have htext : text ⟨n, exponent⟩ = decimalText n ++ List.replicate exponent.toNat '0' := by
      simp [text, h]
    have hspells := spells_whole n exponent.toNat
    refine ⟨_, ['0'], by simpa [pointed, h] using hspells, ?_⟩
    rw [htext, if_neg (by simpa using point_not_mem hspells.isDigit_whole)]
  · obtain ⟨k, rfl⟩ : ∃ k : ℕ, exponent = -(k : ℤ) := ⟨(-exponent).toNat, by omega⟩
    have hpointed : pointed ⟨n, -(k : ℤ)⟩ = ⟨n, -(k : ℤ)⟩ := if_neg h
    have hk : k ≠ 0 := by omega
    rw [hpointed]
    by_cases hlen : k < (decimalText n).length
    · refine ⟨_, _, spells_split hlen, ?_⟩
      have htext : text ⟨n, -(k : ℤ)⟩ = (decimalText n).take ((decimalText n).length - k) ++
          '.' :: (decimalText n).drop ((decimalText n).length - k) := by
        simp [text, hk, hlen]
      rw [if_pos (by simp [htext]), htext]
    · refine ⟨_, _, spells_zeros (by omega), ?_⟩
      have htext : text ⟨n, -(k : ℤ)⟩ =
          '0' :: '.' :: (List.replicate (k - (decimalText n).length) '0' ++ decimalText n) := by
        simp [text, hk, hlen]
      rw [if_pos (by simp [htext]), htext]
      rfl

end Decimal

namespace Binary64

theorem ofMagnitude_magnitude (x : Binary64) : ofMagnitude x.isNegative x.magnitude = x := by
  obtain ⟨bits⟩ := x
  have hlt : bits.toNat < 2 ^ 64 := bits.toNat_lt
  have hsign : FloatFormat.double.signBit = 2 ^ 63 := rfl
  unfold ofMagnitude isNegative magnitude
  simp only [hsign, decide_eq_true_eq, mk.injEq]
  apply UInt64.toNat_inj.mp
  rw [UInt64.toNat_ofNat']
  split <;> omega

end Binary64

namespace FiniteFloat

/-- The decimal that the literal of a number writes, without the sign. -/
def decimal (x : FiniteFloat) : Decimal :=
  (FloatFormat.double.shortestDecimal x.value.magnitude).pointed

/-- The literal of a number reads back as the number, bit for bit. -/
theorem ofDecimal_decimal (x : FiniteFloat) :
    Binary64.ofDecimal x.value.isNegative x.decimal = x.value := by
  have hfin : x.value.magnitude < FloatFormat.double.infinity := by
    simpa [Binary64.isFinite] using x.finite
  have hread : FloatFormat.double.ofDecimal x.decimal = x.value.magnitude := by
    rw [decimal, FloatFormat.ofDecimal_congr _ (Decimal.value_pointed _)]
    exact FloatFormat.ofDecimal_shortestDecimal (by decide) hfin
  rw [Binary64.ofDecimal, hread, Binary64.ofMagnitude_magnitude]

/-- A literal is digits around a point, after a minus sign and in parentheses if the sign bit is
set. -/
theorem exists_literal_eq (x : FiniteFloat) :
    ∃ whole places, x.decimal.Spells whole places ∧
      x.literal = if x.value.isNegative then '(' :: '-' :: (whole ++ '.' :: places ++ [')'])
        else whole ++ '.' :: places := by
  obtain ⟨whole, places, hspells, htext⟩ :=
    (FloatFormat.double.shortestDecimal x.value.magnitude).exists_spells_pointed
  refine ⟨whole, places, hspells, ?_⟩
  have hnan : x.value.isNaN = false := by
    have := x.finite
    simp only [Binary64.isFinite, decide_eq_true_eq] at this
    simp only [Binary64.isNaN, decide_eq_false_iff_not]
    omega
  rw [← htext]
  unfold literal Binary64.text
  simp only [hnan, x.finite, Bool.false_eq_true, if_false, if_true]
  cases x.value.isNegative with
  | false => rfl
  | true =>
    simp only [if_true, List.contains_cons, show ('.' == '-') = false from rfl, Bool.false_or]
    split <;> simp

end FiniteFloat

end NixSource
