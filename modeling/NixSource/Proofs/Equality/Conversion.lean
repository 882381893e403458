import NixSource.Proofs.Conversion.Faults
import NixSource.Proofs.Equality.Value

/-! Equal values have equal expressions. The members of their objects may come in another order, and
then so do the bindings of the sets; only a zero can be equal to a number with another literal. -/

namespace NixSource

theorem Binary64.isFinite_eq_of_numericEq {x y : Binary64} (h : x.numericEq y = true) :
    x.isFinite = y.isFinite := by
  obtain ⟨-, -, rfl | ⟨hx, hy⟩⟩ := (numericEq_iff x y).mp h
  · rfl
  · rw [isFinite, isFinite, hx, hy]

theorem exists_getElem?_of_forall₂ {α β : Type} {R : α → β → Prop} {l : List α} {m : List β}
    (h : List.Forall₂ R l m) {i : Nat} {a : α} (hi : l[i]? = some a) :
    ∃ b, m[i]? = some b ∧ R a b := by
  induction h generalizing i with
  | nil => simp at hi
  | cons hab _ ih =>
    cases i with
    | zero =>
      obtain rfl := Option.some.inj hi
      exact ⟨_, rfl, hab⟩
    | succ i => exact ih hi

namespace Value

variable {a b : Value}

/-! ### Faults of equal values -/

/-- What one of two equal values reaches has its equal at the same place in the other. -/
theorem Reaches.exists_of_beq {x : Value} {steps : Location} (h : (a == b) = true)
    (hx : a.Reaches steps x) : ∃ y, b.Reaches steps y ∧ (x == y) = true := by
  induction hx generalizing b with
  | here a => exact ⟨b, .here b, h⟩
  | index hi _ ih =>
    rw [beq_iff_matches] at h
    cases h with
    | array h =>
      obtain ⟨w, hw, hvw⟩ := exists_getElem?_of_forall₂ h hi
      obtain ⟨y, hy, hxy⟩ := ih hvw
      exact ⟨y, .index hw hy, hxy⟩
  | key hmem _ ih =>
    rw [beq_iff_matches] at h
    cases h with
    | object h =>
      obtain ⟨w, hw, hvw⟩ := h.2 _ hmem
      obtain ⟨y, hy, hxy⟩ := ih hvw
      exact ⟨y, .key (Bindings.mem_of_get? hw) hy, hxy⟩

theorem fault?_eq_none_iff_of_beq {limit : Nat} {here : Location} (h : (a == b) = true) :
    fault? limit (here, a) = none ↔ fault? limit (here, b) = none := by
  rw [fault?_eq_none_iff, fault?_eq_none_iff]
  rw [beq_iff_matches] at h
  cases h with
  | float h =>
    rw [hasLiteral, hasLiteral, Binary64.isFinite_eq_of_numericEq h]
    rfl
  | _ => exact Iff.rfl

theorem no_faults_of_beq {limit : Nat} (h : (b == a) = true)
    (ha : ∀ steps part, a.Reaches steps part → fault? limit (steps, part) = none) :
    ∀ steps part, b.Reaches steps part → fault? limit (steps, part) = none := by
  intro steps y hy
  obtain ⟨x, hx, hyx⟩ := hy.exists_of_beq h
  exact (fault?_eq_none_iff_of_beq hyx).mpr (ha steps x hx)

/-! ### Images of equal values -/

theorem forall₂_imageItems {R : Expr → Expr → Prop} {a b : List Value}
    (h : List.Forall₂ (fun v w => Option.Rel R v.image w.image) a b) :
    List.Forall₂ R (imageItems a) (imageItems b) := by
  induction h with
  | nil => exact .nil
  | @cons v w _ _ hvw _ ih =>
    rw [imageItems, imageItems]
    generalize v.image = o, w.image = p at hvw
    cases hvw with
    | none => exact ih
    | some hef => exact .cons hef ih

theorem names_imageMembers_sublist (members : Bindings Value) :
    (Bindings.names (imageMembers members)).Sublist members.names := by
  induction members with
  | nil => exact .slnil
  | cons p members ih =>
    obtain ⟨name, v⟩ := p
    rw [imageMembers]
    cases v.image with
    | none => exact ih.cons name
    | some e => exact ih.cons_cons name

theorem get?_imageMembers {members : Bindings Value} (h : members.names.Nodup) (name : String) :
    Bindings.get? name (imageMembers members) = (members.get? name).bind image := by
  induction members with
  | nil => rfl
  | cons p members ih =>
    obtain ⟨k, v⟩ := p
    obtain ⟨hk, hmembers⟩ := List.nodup_cons.mp h
    have ih := ih hmembers
    rw [imageMembers, Bindings.get?]
    by_cases hname : k = name
    · subst hname
      have hrest : Bindings.get? k members = none := by
        have hnot : k ∉ Bindings.names members := hk
        rwa [Bindings.mem_names_iff, Option.not_isSome_iff_eq_none] at hnot
      rw [hrest] at ih
      cases hv : v.image with
      | none => simpa [hv] using ih
      | some e => simp [hv, Bindings.get?]
    · cases hv : v.image with
      | none => simpa [hname] using ih
      | some e => simpa [hname, Bindings.get?] using ih

theorem matches_imageMembers {R : Expr → Expr → Prop} {a b : Bindings Value}
    (ha : a.names.Nodup) (hb : b.names.Nodup)
    (h : a.Matches (fun v w => Option.Rel R v.image w.image) b) :
    Bindings.Matches R (imageMembers a) (imageMembers b) := by
  have ha' := (names_imageMembers_sublist a).nodup ha
  have hb' := (names_imageMembers_sublist b).nodup hb
  rw [Bindings.matches_iff_get? ha hb] at h
  rw [Bindings.matches_iff_get? ha' hb']
  intro name
  rw [get?_imageMembers ha, get?_imageMembers hb]
  have hname := h name
  generalize a.get? name = o, b.get? name = p at hname
  cases hname with
  | none => exact .none
  | some h => exact h

/-- No float in a value is a zero, of either sign. -/
def NoZero (v : Value) : Prop :=
  ∀ steps x, v.Reaches steps (float x) → x.magnitude ≠ 0

theorem NoZero.of_mem_parts {v part : Value} (h : v.NoZero) (hpart : part ∈ v.parts) :
    part.NoZero := by
  intro steps x hreach
  obtain ⟨steps', hreach'⟩ := hreach.of_mem_parts hpart
  exact h steps' x hreach'

/-- Equal values without zeros have equal images, or none. -/
theorem image_rel_of_beq (ha : a.WellFormed) (hb : b.WellFormed) (hzero : a.NoZero)
    (h : (a == b) = true) :
    Option.Rel (fun e f => (e == f) = true) a.image b.image := by
  induction a using induction_parts generalizing b with
  | step a ih =>
    have hparts := ((beq_iff_matches a b).mp h).imp_of_mem fun x hx y hy hxy =>
      ih x hx (ha.of_mem_parts hx) (hb.of_mem_parts hy) (hzero.of_mem_parts hx) hxy
    cases hparts with
    | undefined => exact .none
    | null => exact .some rfl
    | bool b => exact .some (beq_self_eq_true b)
    | int i => exact .some (beq_self_eq_true i)
    | uint n => exact .some (beq_self_eq_true (Int64.ofInt n.toNat))
    | @float x y hxy =>
      obtain ⟨-, -, rfl | ⟨hx, -⟩⟩ := (Binary64.numericEq_iff x y).mp hxy
      · rw [image]
        cases FiniteFloat.ofBinary64? x with
        | none => exact .none
        | some f => exact .some (beq_self_eq_true f)
      · exact absurd hx (hzero [] x (.here _))
    | string s => exact .some (beq_self_eq_true s)
    | array hitems => exact .some (Expr.beq_of_matches (.list (forall₂_imageItems hitems)))
    | object hmembers =>
      have hbindings := matches_imageMembers (ha.nodup (.here _)) (hb.nodup (.here _)) hmembers
      exact .some (Expr.beq_of_matches (.attrs hbindings))
    | expr hexpr => exact .some hexpr

/-! ### Conversion of equal values -/

theorem exists_toExpr_iff {limit : Nat} {v : Value} :
    (∃ e, v.toExpr limit = .ok e) ↔
      (∀ steps part, v.Reaches steps part → fault? limit (steps, part) = none) ∧
        v.image.isSome = true := by
  simp only [toExpr_eq_ok_iff, exists_and_left, Option.isSome_iff_exists]

/-- Equal values without zeros are both converted, to equal expressions, or neither of them is. -/
theorem toExpr_of_beq (ha : a.WellFormed) (hb : b.WellFormed) (h : (a == b) = true)
    (hzero : a.NoZero) (limit : Nat) :
    ((∃ e, a.toExpr limit = .ok e) ↔ ∃ f, b.toExpr limit = .ok f) ∧
      ∀ e f, a.toExpr limit = .ok e → b.toExpr limit = .ok f → (e == f) = true := by
  have himage := image_rel_of_beq ha hb hzero h
  constructor
  · have hfaults : (∀ steps part, a.Reaches steps part → fault? limit (steps, part) = none) ↔
        ∀ steps part, b.Reaches steps part → fault? limit (steps, part) = none :=
      ⟨no_faults_of_beq (beq_symm ha hb h), no_faults_of_beq h⟩
    have hsome : a.image.isSome = b.image.isSome := by
      generalize a.image = o, b.image = p at himage
      cases himage <;> rfl
    rw [exists_toExpr_iff, exists_toExpr_iff, hfaults, hsome]
  · intro e f he hf
    rw [(toExpr_eq_ok_iff.mp he).2, (toExpr_eq_ok_iff.mp hf).2] at himage
    cases himage with
    | some hef => exact hef

/-- Members in another order in an object and in an object in it, and one of them undefined. -/
theorem toExpr_of_beq_reordered :
    (object [("x", undefined), ("y", object [("p", float ⟨0x3FF8000000000000⟩), ("q", null)])] ==
        object [("y", object [("q", null), ("p", float ⟨0x3FF8000000000000⟩)]),
          ("x", undefined)]) = true ∧
      ∃ e f,
        (object [("x", undefined),
          ("y", object [("p", float ⟨0x3FF8000000000000⟩), ("q", null)])]).toExpr 2 = .ok e ∧
        (object [("y", object [("q", null), ("p", float ⟨0x3FF8000000000000⟩)]),
          ("x", undefined)]).toExpr 2 = .ok f ∧
        (e == f) = true := by
  have hundefined := IsScalar.undefined.wellFormed
  have hnull := IsScalar.null.wellFormed
  have hfloat := (IsScalar.float ⟨0x3FF8000000000000⟩).wellFormed
  have hpq : (object [("p", float ⟨0x3FF8000000000000⟩), ("q", null)]).WellFormed :=
    WellFormedMembers.object ⟨by decide, by simp [hfloat, hnull]⟩
  have hqp : (object [("q", null), ("p", float ⟨0x3FF8000000000000⟩)]).WellFormed :=
    WellFormedMembers.object ⟨by decide, by simp [hfloat, hnull]⟩
  have ha : (object [("x", undefined),
      ("y", object [("p", float ⟨0x3FF8000000000000⟩), ("q", null)])]).WellFormed :=
    WellFormedMembers.object ⟨by decide, by simp [hundefined, hpq]⟩
  have hb : (object [("y", object [("q", null), ("p", float ⟨0x3FF8000000000000⟩)]),
      ("x", undefined)]).WellFormed :=
    WellFormedMembers.object ⟨by decide, by simp [hundefined, hqp]⟩
  have hzero : (object [("x", undefined),
      ("y", object [("p", float ⟨0x3FF8000000000000⟩), ("q", null)])]).NoZero := by
    intro steps x hreach
    have hmem := (mem_positions_iff _ steps (float x)).mpr hreach
    obtain ⟨-, rfl⟩ : _ ∧ x = ⟨0x3FF8000000000000⟩ := by
      simpa [positions, positionsAt, memberPositions] using hmem
    decide
  have hsame : (object [("x", undefined),
        ("y", object [("p", float ⟨0x3FF8000000000000⟩), ("q", null)])] ==
      object [("y", object [("q", null), ("p", float ⟨0x3FF8000000000000⟩)]),
        ("x", undefined)]) = true := by
    decide
  obtain ⟨hiff, hequal⟩ := toExpr_of_beq ha hb hsame hzero 2
  obtain ⟨f, hf⟩ := hiff.mp ⟨_, rfl⟩
  exact ⟨hsame, _, f, rfl, hf, hequal _ f rfl hf⟩

end Value

end NixSource
