import NixSource.Proofs.Equality.Expr
import NixSource.Proofs.Value.WellFormed

/-! Equality of values is symmetric and transitive. A value equals itself unless there is a NaN in
it, because floats are compared as numbers. -/

namespace NixSource

namespace Binary64

variable {x y z : Binary64}

theorem numericEq_iff (x y : Binary64) :
    x.numericEq y = true ↔
      x.isNaN = false ∧ y.isNaN = false ∧ (x = y ∨ x.magnitude = 0 ∧ y.magnitude = 0) := by
  simp [numericEq, and_assoc]

theorem numericEq_self_iff (x : Binary64) : x.numericEq x = true ↔ x.isNaN = false := by
  simp [numericEq_iff]

theorem numericEq_symm (h : x.numericEq y = true) : y.numericEq x = true := by
  rw [numericEq_iff] at h ⊢
  obtain ⟨hx, hy, hxy⟩ := h
  exact ⟨hy, hx, hxy.imp Eq.symm And.symm⟩

theorem numericEq_trans (h : x.numericEq y = true) (h' : y.numericEq z = true) :
    x.numericEq z = true := by
  rw [numericEq_iff] at h h' ⊢
  obtain ⟨hx, -, rfl | ⟨hx0, hy0⟩⟩ := h
  · exact h'
  · obtain ⟨-, hz, rfl | ⟨-, hz0⟩⟩ := h'
    · exact ⟨hx, hz, .inr ⟨hx0, hy0⟩⟩
    · exact ⟨hx, hz, .inr ⟨hx0, hz0⟩⟩

end Binary64

namespace Value

variable {R S : Value → Value → Prop} {a b c v : Value}

/-- Values of the same form with parts that are related by `R`. Only the members of objects may
come in another order. -/
inductive Matches (R : Value → Value → Prop) : Value → Value → Prop where
  | undefined : Matches R undefined undefined
  | null : Matches R null null
  | bool (b : Bool) : Matches R (bool b) (bool b)
  | int (i : Int64) : Matches R (int i) (int i)
  | uint (n : UInt64) : Matches R (uint n) (uint n)
  | float {x y : Binary64} : x.numericEq y = true → Matches R (float x) (float y)
  | string (s : String) : Matches R (string s) (string s)
  | array {a b : List Value} : List.Forall₂ R a b → Matches R (array a) (array b)
  | object {a b : Bindings Value} : a.Matches R b → Matches R (object a) (object b)
  | expr {e f : Expr} : (e == f) = true → Matches R (expr e) (expr f)

/-! ### Equality, one layer at a time -/

theorem sameItems_iff (a b : List Value) :
    sameItems a b = true ↔ List.Forall₂ (fun x y => (x == y) = true) a b := by
  induction a generalizing b with
  | nil => cases b <;> simp [sameItems]
  | cons x a ih =>
    cases b with
    | nil => simp [sameItems]
    | cons y b =>
      rw [sameItems, Bool.and_eq_true, ih, List.forall₂_cons]
      rfl

theorem membersIn_iff (b : Bindings Value) (l : List (String × Value)) :
    membersIn b l = true ↔ ∀ p ∈ l, ∃ w, b.get? p.1 = some w ∧ (p.2 == w) = true := by
  induction l with
  | nil => simp [membersIn]
  | cons p l ih =>
    have hcons : membersIn b (p :: l) = ((b.get? p.1).any (p.2 == ·) && membersIn b l) := by
      rw [membersIn]
      cases b.get? p.1 <;> rfl
    rw [hcons, Bool.and_eq_true, Option.any_eq_true, ih, List.forall_mem_cons]

theorem beq_object_iff (a b : Bindings Value) :
    (object a == object b) = true ↔ a.Matches (fun x y => (x == y) = true) b := by
  change (a.length == b.length && membersIn b a) = true ↔ _
  rw [Bool.and_eq_true, beq_iff_eq, membersIn_iff, Bindings.Matches]

theorem beq_iff_matches (a b : Value) :
    (a == b) = true ↔ a.Matches (fun x y => (x == y) = true) b := by
  constructor
  · intro h
    change a.same b = true at h
    unfold same at h
    split at h
    · exact .undefined
    · exact .null
    · exact eq_of_beq h ▸ .bool _
    · exact eq_of_beq h ▸ .int _
    · exact eq_of_beq h ▸ .uint _
    · exact .float h
    · exact eq_of_beq h ▸ .string _
    · exact .array ((sameItems_iff _ _).mp h)
    · exact .object ((beq_object_iff _ _).mp h)
    · exact .expr h
    · cases h
  · intro h
    cases h with
    | undefined | null => rfl
    | bool b => exact beq_self_eq_true b
    | int i => exact beq_self_eq_true i
    | uint n => exact beq_self_eq_true n
    | float h => exact h
    | string s => exact beq_self_eq_true s
    | array h => exact (sameItems_iff _ _).mpr h
    | object h => exact (beq_object_iff _ _).mpr h
    | expr h => exact h

theorem Matches.imp_of_mem (h : a.Matches R b)
    (hRS : ∀ x ∈ a.parts, ∀ y ∈ b.parts, R x y → S x y) : a.Matches S b := by
  cases h with
  | undefined => exact .undefined
  | null => exact .null
  | bool b => exact .bool b
  | int i => exact .int i
  | uint n => exact .uint n
  | float h => exact .float h
  | string s => exact .string s
  | array h => exact .array (forall₂_imp_of_mem h hRS)
  | object h => exact .object (h.imp_of_mem hRS)
  | expr h => exact .expr h

theorem Matches.swap (h : a.Matches R b) (ha : a.WellFormed) (hb : b.WellFormed) :
    b.Matches (flip R) a := by
  cases h with
  | undefined => exact .undefined
  | null => exact .null
  | bool b => exact .bool b
  | int i => exact .int i
  | uint n => exact .uint n
  | float h => exact .float (Binary64.numericEq_symm h)
  | string s => exact .string s
  | array h => exact .array h.flip
  | object h => exact .object (h.swap (ha.nodup (.here _)) (hb.nodup (.here _)))
  | expr h => exact .expr (Expr.beq_symm (ha.wellFormed (.here _)) (hb.wellFormed (.here _)) h)

theorem Matches.comp (h : a.Matches R b) (h' : b.Matches S c) :
    a.Matches (Relation.Comp R S) c := by
  cases h with
  | undefined | null | bool | int | uint | string =>
    cases h'
    constructor
  | float h =>
    cases h' with
    | float h' => exact .float (Binary64.numericEq_trans h h')
  | array h =>
    cases h' with
    | array h' => exact .array (forall₂_comp h h')
  | object h =>
    cases h' with
    | object h' => exact .object (h.comp h')
  | expr h =>
    cases h' with
    | expr h' => exact .expr (Expr.beq_trans h h')

/-! ### The laws, from the parts to the whole -/

theorem beq_symm (ha : a.WellFormed) (hb : b.WellFormed) (h : (a == b) = true) :
    (b == a) = true := by
  induction a using induction_parts generalizing b with
  | step a ih =>
    rw [beq_iff_matches] at h ⊢
    refine (h.swap ha hb).imp_of_mem fun y hy x hx hxy => ?_
    exact ih x hx (ha.of_mem_parts hx) (hb.of_mem_parts hy) hxy

theorem beq_trans (h : (a == b) = true) (h' : (b == c) = true) : (a == c) = true := by
  induction a using induction_parts generalizing b c with
  | step a ih =>
    rw [beq_iff_matches] at h h' ⊢
    refine (h.comp h').imp_of_mem fun x hx z _ hxz => ?_
    obtain ⟨y, hxy, hyz⟩ := hxz
    exact ih x hx hxy hyz

theorem matches_self_iff (hv : v.WellFormed) :
    v.Matches R v ↔ (∀ x, v = float x → x.isNaN = false) ∧ ∀ part ∈ v.parts, R part part := by
  constructor
  · intro h
    cases h with
    | float h =>
      refine ⟨fun y hy => ?_, by simp [parts]⟩
      cases hy
      exact (Binary64.numericEq_self_iff _).mp h
    | array h => exact ⟨by simp, List.forall₂_same.mp h⟩
    | object h => exact ⟨by simp, (Bindings.matches_self_iff (hv.nodup (.here _))).mp h⟩
    | _ => simp [parts]
  · rintro ⟨hfloat, hparts⟩
    cases v with
    | undefined => exact .undefined
    | null => exact .null
    | bool b => exact .bool b
    | int i => exact .int i
    | uint n => exact .uint n
    | float x => exact .float ((Binary64.numericEq_self_iff x).mpr (hfloat x rfl))
    | string s => exact .string s
    | array items => exact .array (List.forall₂_same.mpr hparts)
    | object members =>
      exact .object ((Bindings.matches_self_iff (hv.nodup (.here _))).mpr hparts)
    | expr e => exact .expr (Expr.beq_refl (hv.wellFormed (.here _)))

/-- A value is equal to itself exactly if no float in it is a NaN. -/
theorem beq_self_iff (hv : v.WellFormed) :
    (v == v) = true ↔ ∀ steps x, v.Reaches steps (float x) → x.isNaN = false := by
  induction v using induction_parts with
  | step v ih =>
    rw [beq_iff_matches, matches_self_iff hv]
    constructor
    · rintro ⟨hfloat, hparts⟩ steps x hreach
      obtain rfl | ⟨part, hpart, steps', h⟩ := (reaches_iff v (float x)).mp ⟨steps, hreach⟩
      · exact hfloat x rfl
      · exact (ih part hpart (hv.of_mem_parts hpart)).mp (hparts part hpart) steps' x h
    · intro h
      refine ⟨fun x hx => h [] x (hx ▸ .here v), fun part hpart => ?_⟩
      rw [ih part hpart (hv.of_mem_parts hpart)]
      intro steps x hreach
      obtain ⟨steps', h'⟩ := hreach.of_mem_parts hpart
      exact h steps' x h'

end Value

end NixSource
