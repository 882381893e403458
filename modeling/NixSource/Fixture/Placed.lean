import NixSource.Fixture.Piece

/-! Where the added lines of a script stand. A run of them that ends as the kept lines before it do
can as well stand before those, and likewise below, so a script has many forms. In the settled one
each run has gone up and then down as far as it goes, and runs that meet are one. No form changes
the lines of either list. -/

namespace NixSource

/-- A script around a run of added lines: what comes before it, nearest first, and after it. -/
structure Placed (α : Type) where
  before : List (Piece α)
  run : List α
  after : List (Piece α)

namespace Placed

variable {α : Type} [DecidableEq α]

/-- The run moved up, past kept lines that are also its last, past removed lines, and into the runs
that it meets. -/
def lift : List (Piece α) → List α → List (Piece α) → Placed α
  | [], run, after => ⟨[], run, after⟩
  | .kept l :: before, run, after =>
    if run.getLast? = some l then lift before (l :: run.dropLast) (.kept l :: after)
    else ⟨.kept l :: before, run, after⟩
  | .removed l :: before, run, after => lift before run (.removed l :: after)
  | .added ls :: before, run, after => lift before (ls ++ run) after

/-- The run moved down, past kept lines that are also its first, past removed lines, and into the
runs that it meets. -/
def lower : List (Piece α) → List α → List (Piece α) → Placed α
  | before, run, [] => ⟨before, run, []⟩
  | before, run, .kept l :: after =>
    if run.head? = some l then lower (.kept l :: before) (run.tail ++ [l]) after
    else ⟨before, run, .kept l :: after⟩
  | before, run, .removed l :: after => lower (.removed l :: before) run after
  | before, run, .added ls :: after => lower before (run ++ ls) after

theorem countP_lift (before : List (Piece α)) (run : List α) (after : List (Piece α)) :
    (lift before run after).after.countP Piece.isAdded = after.countP Piece.isAdded := by
  fun_induction lift before run after with
  | case1 => rfl
  | case2 l before run after h ih => simpa [Piece.isAdded] using ih
  | case3 => rfl
  | case4 l before run after ih => simpa [Piece.isAdded] using ih
  | case5 ls before run after ih => exact ih

theorem countP_lower_le (before : List (Piece α)) (run : List α) (after : List (Piece α)) :
    (lower before run after).after.countP Piece.isAdded ≤ after.countP Piece.isAdded := by
  fun_induction lower before run after with
  | case1 => exact Nat.le_refl _
  | case2 before run l after h ih => simpa [Piece.isAdded] using ih
  | case3 => exact Nat.le_refl _
  | case4 before run l after ih => simpa [Piece.isAdded] using ih
  | case5 before run ls after ih =>
    simp only [List.countP_cons, Piece.isAdded]
    omega

def script (p : Placed α) : List (Piece α) :=
  p.before.reverse ++ .added p.run :: p.after

theorem oldLines_lift (before : List (Piece α)) (run : List α) (after : List (Piece α)) :
    (lift before run after).script.flatMap Piece.oldLines =
      before.reverse.flatMap Piece.oldLines ++ after.flatMap Piece.oldLines := by
  fun_induction lift before run after with
  | case1 => simp [script, Piece.oldLines]
  | case2 l before run after h ih => simp [ih, Piece.oldLines]
  | case3 => simp [script, Piece.oldLines]
  | case4 l before run after ih => simp [ih, Piece.oldLines]
  | case5 ls before run after ih => simp [ih, Piece.oldLines]

theorem newLines_lift (before : List (Piece α)) (run : List α) (after : List (Piece α)) :
    (lift before run after).script.flatMap Piece.newLines =
      before.reverse.flatMap Piece.newLines ++ run ++ after.flatMap Piece.newLines := by
  fun_induction lift before run after with
  | case1 => simp [script, Piece.newLines]
  | case2 l before run after h ih =>
    obtain ⟨start, rfl⟩ := List.getLast?_eq_some_iff.mp h
    rw [ih]
    simp [Piece.newLines]
  | case3 => simp [script, Piece.newLines]
  | case4 l before run after ih => simp [ih, Piece.newLines]
  | case5 ls before run after ih => simp [ih, Piece.newLines]

theorem oldLines_lower (before : List (Piece α)) (run : List α) (after : List (Piece α)) :
    (lower before run after).script.flatMap Piece.oldLines =
      before.reverse.flatMap Piece.oldLines ++ after.flatMap Piece.oldLines := by
  fun_induction lower before run after with
  | case1 => simp [script, Piece.oldLines]
  | case2 before run l after h ih => simp [ih, Piece.oldLines]
  | case3 => simp [script, Piece.oldLines]
  | case4 before run l after ih => simp [ih, Piece.oldLines]
  | case5 before run ls after ih => simp [ih, Piece.oldLines]

theorem newLines_lower (before : List (Piece α)) (run : List α) (after : List (Piece α)) :
    (lower before run after).script.flatMap Piece.newLines =
      before.reverse.flatMap Piece.newLines ++ run ++ after.flatMap Piece.newLines := by
  fun_induction lower before run after with
  | case1 => simp [script, Piece.newLines]
  | case2 before run l after h ih =>
    obtain ⟨rest, rfl⟩ := List.head?_eq_some_iff.mp h
    rw [ih]
    simp [Piece.newLines]
  | case3 => simp [script, Piece.newLines]
  | case4 before run l after ih => simp [ih, Piece.newLines]
  | case5 before run ls after ih => simp [ih, Piece.newLines]

end Placed

section Settle

variable {α : Type} [DecidableEq α]

/-- The settled form of a script, of which `before` is settled, nearest first. Every step leaves
fewer runs, or as many and fewer pieces. -/
def settle : List (Piece α) → List (Piece α) → List (Piece α)
  | before, [] => before.reverse
  | before, .kept l :: after => settle (.kept l :: before) after
  | before, .removed l :: after => settle (.removed l :: before) after
  | before, .added ls :: after =>
    let lifted := Placed.lift before ls after
    let placed := Placed.lower lifted.before lifted.run lifted.after
    settle (.added placed.run :: placed.before) placed.after
termination_by _ after => (after.countP Piece.isAdded, after.length)
decreasing_by
  · simp [Prod.lex_def, Piece.isAdded]
  · simp [Prod.lex_def, Piece.isAdded]
  · apply Prod.Lex.left
    simp only [List.countP_cons, Piece.isAdded]
    exact Nat.lt_succ_of_le (Nat.le_trans (Placed.countP_lower_le _ _ _)
      (Nat.le_of_eq (Placed.countP_lift before ls after)))

theorem oldLines_settle (before after : List (Piece α)) :
    (settle before after).flatMap Piece.oldLines =
      before.reverse.flatMap Piece.oldLines ++ after.flatMap Piece.oldLines := by
  fun_induction settle before after with
  | case1 => simp
  | case2 before l after ih => simp [ih, Piece.oldLines]
  | case3 before l after ih => simp [ih, Piece.oldLines]
  | case4 before ls after lifted placed ih =>
    have lowered := Placed.oldLines_lower lifted.before lifted.run lifted.after
    have raised := Placed.oldLines_lift before ls after
    simp only [Placed.script, List.flatMap_append, List.flatMap_cons, Piece.oldLines,
      List.nil_append] at lowered raised
    simp only [ih, List.reverse_cons, List.flatMap_append, List.flatMap_cons, Piece.oldLines,
      List.flatMap_nil, List.append_nil]
    exact lowered.trans raised

theorem newLines_settle (before after : List (Piece α)) :
    (settle before after).flatMap Piece.newLines =
      before.reverse.flatMap Piece.newLines ++ after.flatMap Piece.newLines := by
  fun_induction settle before after with
  | case1 => simp
  | case2 before l after ih => simp [ih, Piece.newLines]
  | case3 before l after ih => simp [ih, Piece.newLines]
  | case4 before ls after lifted placed ih =>
    have lowered := Placed.newLines_lower lifted.before lifted.run lifted.after
    have raised := Placed.newLines_lift before ls after
    simp only [Placed.script, List.flatMap_append, List.flatMap_cons, Piece.newLines,
      List.append_assoc] at lowered raised
    simp only [ih, List.reverse_cons, List.flatMap_append, List.flatMap_cons, Piece.newLines,
      List.flatMap_nil, List.append_nil, List.append_assoc]
    exact lowered.trans raised

end Settle

end NixSource
