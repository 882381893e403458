import NixSource.Proofs.Conversion.FirstFault

/-! The faults that the parts of a value have, part by part: what has one, and what it means for the
whole value that none of its parts does. -/

namespace NixSource

namespace Value

variable {limit : Nat} {here : Location} {v : Value}

def isContainer : Value → Bool
  | array _ | object _ => true
  | _ => false

/-- Whether a value is no number that the language has no literal for. -/
def hasLiteral : Value → Bool
  | uint n => n.toNat ≤ 9223372036854775807
  | float x => x.isFinite
  | _ => true

theorem fault?_eq_none_iff :
    fault? limit (here, v) = none ↔
      v.hasLiteral = true ∧ (v.isContainer = true → here.length < limit) := by
  cases v <;> simp [fault?, hasLiteral, isContainer]

theorem fault?_ne_undefinedRoot (p : Location × Value) : fault? limit p ≠ some .undefinedRoot := by
  obtain ⟨here, v⟩ := p
  cases v with
  | uint | float | array | object =>
    unfold fault?
    split <;> simp
  | _ => simp [fault?]

/-- Only what is undefined or has a fault of its own has no image. -/
theorem exists_image_of_fault?_eq_none (hv : v ≠ undefined)
    (hfault : fault? limit (here, v) = none) : ∃ e, v.image = some e := by
  have hliteral := (fault?_eq_none_iff.mp hfault).1
  cases v with
  | undefined => exact absurd rfl hv
  | float x =>
    have hfinite : x.isFinite = true := hliteral
    exact ⟨.float ⟨x, hfinite⟩, by simp [image, FiniteFloat.ofBinary64?, hfinite]⟩
  | _ => exact ⟨_, rfl⟩

/-- A value is converted exactly if nothing that it reaches has a fault, and then to its image. -/
theorem toExpr_eq_ok_iff {e : Expr} :
    v.toExpr limit = .ok e ↔
      (∀ steps part, v.Reaches steps part → fault? limit (steps, part) = none) ∧
        v.image = some e := by
  have hpositions : v.positions.findSome? (fault? limit) = none ↔
      ∀ steps part, v.Reaches steps part → fault? limit (steps, part) = none := by
    simp only [List.findSome?_eq_none_iff, Prod.forall, mem_positions_iff]
  rw [← hpositions]
  constructor
  · exact fault_and_image_of_toExpr
  · rintro ⟨hfault, himage⟩
    rw [toExpr_eq_settle, hfault, himage]
    rfl

theorem toExpr_eq_error_iff {e : ConversionError} (he : e ≠ .undefinedRoot) :
    v.toExpr limit = .error e ↔ v.positions.findSome? (fault? limit) = some e := by
  rw [toExpr_eq_settle]
  cases v.positions.findSome? (fault? limit) <;> cases v.image <;>
    simp [settle, Except.bind, he.symm]

/-- An error is the fault of some part. -/
theorem exists_reaches_of_toExpr {e : ConversionError} (h : v.toExpr limit = .error e)
    (he : e ≠ .undefinedRoot) :
    ∃ steps part, v.Reaches steps part ∧ fault? limit (steps, part) = some e := by
  have hfirst := (toExpr_eq_error_iff he).mp h
  obtain ⟨⟨steps, part⟩, hmem, hfault⟩ := List.exists_of_findSome?_eq_some hfirst
  exact ⟨steps, part, (mem_positions_iff v steps part).mp hmem, hfault⟩

theorem Reaches.append {w part : Value} {place steps : Location} (h : v.Reaches place w)
    (h' : w.Reaches steps part) : v.Reaches (place ++ steps) part := by
  induction h with
  | here v => exact h'
  | index hi _ ih => exact .index hi (ih h')
  | key hmem _ ih => exact .key hmem (ih h')

end Value

end NixSource
