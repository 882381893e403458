import NixSource.Proofs.Syntax.Spelling

/-! Reading from tokens: what is left behind, and the numerals that tokens write. Negative ones are
written in parentheses, and the least integer as a difference. -/

namespace NixSource

/-- What was read and what is left, if fewer than `n` tokens are left. That reading comes to an end
rests on it, so it is asked wherever something else is read behind. -/
def leaving {α : Type} (n : Nat) :
    Option (α × List Token) → Option (α × {ts : List Token // ts.length < n})
  | some (a, ts) => if h : ts.length < n then some (a, ⟨ts, h⟩) else none
  | none => none

theorem leaving_some {α : Type} {n : Nat} (a : α) {ts : List Token} (h : ts.length < n) :
    leaving n (some (a, ts)) = some (a, ⟨ts, h⟩) :=
  dif_pos h

@[simp] theorem leaving_append {α : Type} (a : α) (us ts : List Token) :
    leaving ((us ++ ts).length + 1) (some (a, ts)) =
      some (a, ⟨ts, Nat.lt_succ_of_le (List.suffix_append us ts).length_le⟩) :=
  leaving_some a _

theorem length_lt_append {us : List Token} (h : us ≠ []) (ts : List Token) :
    ts.length < (us ++ ts).length := by
  have := List.length_pos_of_ne_nil h
  rw [List.length_append]
  omega

theorem leaving_append_of_ne_nil {α : Type} (a : α) {us : List Token} (h : us ≠ [])
    (ts : List Token) :
    leaving (us ++ ts).length (some (a, ts)) = some (a, ⟨ts, length_lt_append h ts⟩) :=
  leaving_some a _

/-- The tokens behind an expected one. -/
def expect (expected : Token) :
    (ts : List Token) → Option {rest : List Token // rest.length < ts.length}
  | t :: ts => if t = expected then some ⟨ts, Nat.lt_succ_self _⟩ else none
  | [] => none

@[simp] theorem expect_cons (t : Token) (ts : List Token) :
    expect t (t :: ts) = some ⟨ts, Nat.lt_succ_self _⟩ :=
  if_pos rfl

/-- An integer or a finite number. -/
inductive Numeral where
  | int (i : Int64)
  | float (x : FiniteFloat)

def largestInteger : Nat := 9223372036854775807

/-- The integer `n`, or its opposite, if it is not too large. -/
def Numeral.ofNat? (negative : Bool) (n : Nat) : Option Numeral :=
  if n ≤ largestInteger then some (.int (Int64.ofInt (if negative then -(n : Int) else n)))
  else none

/-- The number nearest to a decimal, or its opposite, if that is finite. -/
def Numeral.ofDecimal? (negative : Bool) (d : Decimal) : Option Numeral :=
  (FiniteFloat.ofBinary64? (.ofDecimal negative d)).map .float

/-- The numeral that tokens start with, and the tokens behind it. -/
def readNumeral? : List Token → Option (Numeral × List Token)
  | .integer n :: ts => (Numeral.ofNat? false n).map (·, ts)
  | .decimal d :: ts => (Numeral.ofDecimal? false d).map (·, ts)
  | .openParen :: .minus :: .integer n :: .closeParen :: ts => (Numeral.ofNat? true n).map (·, ts)
  | .openParen :: .minus :: .decimal d :: .closeParen :: ts =>
    (Numeral.ofDecimal? true d).map (·, ts)
  | .openParen :: .minus :: .integer n :: .minus :: .integer m :: .closeParen :: ts =>
    if n = largestInteger ∧ m = 1 then some (.int Int64.minValue, ts) else none
  | _ => none

theorem readNumeral?_integerTokens (i : Int64) (ts : List Token) :
    readNumeral? (integerTokens i ++ ts) = some (.int i, ts) := by
  have hrange := i.toInt_lt
  have hrange' := i.le_toInt
  unfold integerTokens
  split
  · next h => simp [readNumeral?, largestInteger, h]
  · next hleast =>
    have hne : i.toInt ≠ -9223372036854775808 := fun h => hleast (Int64.toInt_inj.mp h)
    split
    · next hneg =>
      have hneg : i.toInt < 0 := Int64.lt_iff_toInt_lt.mp hneg
      have hle : i.toInt.natAbs ≤ largestInteger := by unfold largestInteger; omega
      have hopp : -(i.toInt.natAbs : Int) = i.toInt := by omega
      have hread : Numeral.ofNat? true i.toInt.natAbs = some (.int i) := by
        rw [Numeral.ofNat?, if_pos hle, if_pos rfl, hopp, Int64.ofInt_toInt]
      simp [readNumeral?, hread]
    · next hpos =>
      have hpos : 0 ≤ i.toInt := by
        rw [Int64.lt_iff_toInt_lt] at hpos
        exact Int.not_lt.mp hpos
      have hle : i.toInt.natAbs ≤ largestInteger := by unfold largestInteger; omega
      have hself : (i.toInt.natAbs : Int) = i.toInt := by omega
      have hread : Numeral.ofNat? false i.toInt.natAbs = some (.int i) := by
        rw [Numeral.ofNat?, if_pos hle, if_neg Bool.false_ne_true, hself, Int64.ofInt_toInt]
      simp [readNumeral?, hread]

theorem readNumeral?_floatTokens (x : FiniteFloat) (ts : List Token) :
    readNumeral? (x.tokens ++ ts) = some (.float x, ts) := by
  have hread := x.ofDecimal_decimal
  have hfinite := x.finite
  unfold FiniteFloat.tokens
  split
  · next h =>
    rw [h] at hread
    simp [readNumeral?, Numeral.ofDecimal?, hread, FiniteFloat.ofBinary64?, hfinite]
  · next h =>
    rw [Bool.not_eq_true] at h
    rw [h] at hread
    simp [readNumeral?, Numeral.ofDecimal?, hread, FiniteFloat.ofBinary64?, hfinite]

end NixSource
