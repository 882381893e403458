import NixSource.Proofs.Equality.Value

/-! What equality is: an equivalence of expressions, and of values up to NaN; of sets and objects,
equality of the maps that their bindings are. -/

namespace NixSource

/-- Equality of bindings as maps: it holds exactly if every name is bound on both sides, to equal
values, or on neither, and exactly if the bindings of the one side can be reordered to be, one by
one, those of the other with equal values. -/
structure Bindings.IsMapEquality {α : Type} [BEq α] (equal : Bindings α → Bindings α → Bool) :
    Prop where
  lookup : ∀ a b : Bindings α, a.names.Nodup → b.names.Nodup →
    (equal a b = true ↔
      ∀ name, Option.Rel (fun v w => (v == w) = true) (a.get? name) (b.get? name))
  permutation : ∀ a b : Bindings α, a.names.Nodup → b.names.Nodup →
    (equal a b = true ↔ ∃ c : Bindings α, c.Perm b ∧
      List.Forall₂ (fun p q => p.1 = q.1 ∧ (p.2 == q.2) = true) a c)

theorem Bindings.isMapEquality_of_matches {α : Type} [BEq α]
    {equal : Bindings α → Bindings α → Bool}
    (h : ∀ a b, equal a b = true ↔ a.Matches (fun v w => (v == w) = true) b) :
    Bindings.IsMapEquality equal where
  lookup a b ha hb := (h a b).trans (matches_iff_get? ha hb)
  permutation a b ha hb := (h a b).trans (matches_iff_perm ha hb)

/-- Equality is an equivalence of expressions. Of values it is symmetric and transitive, and a value
is equal to itself exactly if no float in it is a NaN. Sets and objects are equal exactly if their
bindings are as maps. -/
theorem equality_laws :
    (Equivalence fun a b : { e : Expr // e.WellFormed } => (a.val == b.val) = true) ∧
      (∀ a b : Value, a.WellFormed → b.WellFormed → (a == b) = true → (b == a) = true) ∧
      (∀ a b c : Value, (a == b) = true → (b == c) = true → (a == c) = true) ∧
      (∀ v : Value, v.WellFormed →
        ((v == v) = true ↔ ∀ steps x, v.Reaches steps (.float x) → x.isNaN = false)) ∧
      Bindings.IsMapEquality Expr.sameBindings ∧
      (∀ (a b : Bindings Expr) (c d : Expr),
        (Expr.attrs a == .attrs b) = Expr.sameBindings a b ∧
        (Expr.recAttrs a == .recAttrs b) = Expr.sameBindings a b ∧
        (Expr.letIn a c == .letIn b d) = (Expr.sameBindings a b && c == d)) ∧
      Bindings.IsMapEquality fun a b => Value.object a == Value.object b := by
  refine ⟨Expr.equivalence_beq, fun _ _ => Value.beq_symm, fun _ _ _ => Value.beq_trans,
    fun _ => Value.beq_self_iff, ?_, fun _ _ _ _ => ⟨rfl, rfl, rfl⟩, ?_⟩
  · exact Bindings.isMapEquality_of_matches Expr.sameBindings_iff
  · exact Bindings.isMapEquality_of_matches Value.beq_object_iff

/-- Sets and objects are equal to what they are in another order, from either side, and a list with
a NaN in it is not equal to itself. -/
theorem equality_laws_reordered :
    (Expr.attrs [("y", .bool true), ("x", .null)] ==
        .attrs [("x", .null), ("y", .bool true)]) = true ∧
      (Value.object [("y", .bool true), ("x", .null)] ==
        .object [("x", .null), ("y", .bool true)]) = true ∧
      (Value.array [.null, .float ⟨0x7FF8000000000000⟩] ==
        .array [.null, .float ⟨0x7FF8000000000000⟩]) = false := by
  obtain ⟨hexpr, hsymm, -, hself, hbindings, hsets, hobjects⟩ := equality_laws
  have hnull := Value.IsScalar.null.wellFormed
  have hbool := (Value.IsScalar.bool true).wellFormed
  have hfloat := (Value.IsScalar.float ⟨0x7FF8000000000000⟩).wellFormed
  refine ⟨?_, ?_, ?_⟩
  · have hxy : (Expr.attrs [("x", .null), ("y", .bool true)]).WellFormed := by
      simp [Expr.WellFormed, Expr.WellFormedBindings]
    have hyx : (Expr.attrs [("y", .bool true), ("x", .null)]).WellFormed := by
      simp [Expr.WellFormed, Expr.WellFormedBindings]
    refine hexpr.symm (x := ⟨_, hxy⟩) (y := ⟨_, hyx⟩) ?_
    rw [(hsets _ _ .null .null).1]
    refine (hbindings.permutation _ _ (by decide) (by decide)).mpr ⟨_, .swap _ _ _, ?_⟩
    exact .cons ⟨rfl, rfl⟩ (.cons ⟨rfl, rfl⟩ .nil)
  · have hxy : (Value.object [("x", .null), ("y", .bool true)]).WellFormed :=
      Value.WellFormedMembers.object ⟨by decide, by simp [hnull, hbool]⟩
    have hyx : (Value.object [("y", .bool true), ("x", .null)]).WellFormed :=
      Value.WellFormedMembers.object ⟨by decide, by simp [hnull, hbool]⟩
    refine hsymm _ _ hxy hyx ?_
    refine (hobjects.permutation _ _ (by decide) (by decide)).mpr ⟨_, .swap _ _ _, ?_⟩
    exact .cons ⟨rfl, rfl⟩ (.cons ⟨rfl, rfl⟩ .nil)
  · have hv : (Value.array [.null, .float ⟨0x7FF8000000000000⟩]).WellFormed :=
      Value.wellFormed_array (by simp [hnull, hfloat])
    rw [← Bool.not_eq_true, hself _ hv]
    intro h
    exact absurd (h [.index 1] _ (.index rfl (.here _))) (by decide)

end NixSource
