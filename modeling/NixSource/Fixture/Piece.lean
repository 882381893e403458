import NixSource.Fixture.Midpoint

/-! The pieces of a script that turns one list of lines into another: what both share at either end,
and the pieces on either side of the middle of a shortest way. They account for every line. -/

namespace NixSource

/-- A piece of a script: a line of both lists or of the old one, or a run of lines of the new. -/
inductive Piece (α : Type) where
  | kept (line : α)
  | removed (line : α)
  | added (lines : List α)
deriving DecidableEq

namespace Piece

variable {α : Type}

def oldLines : Piece α → List α
  | kept l | removed l => [l]
  | added _ => []

def newLines : Piece α → List α
  | kept l => [l]
  | removed _ => []
  | added ls => ls

def isAdded : Piece α → Bool
  | added _ => true
  | kept _ | removed _ => false

@[simp] theorem oldLines_map_removed (ls : List α) :
    (ls.map removed).flatMap oldLines = ls := by
  induction ls <;> simp_all [oldLines]

@[simp] theorem newLines_map_removed (ls : List α) :
    (ls.map removed).flatMap newLines = [] := by
  induction ls <;> simp_all [newLines]

@[simp] theorem oldLines_map_kept (ls : List α) : (ls.map kept).flatMap oldLines = ls := by
  induction ls <;> simp_all [oldLines]

@[simp] theorem newLines_map_kept (ls : List α) : (ls.map kept).flatMap newLines = ls := by
  induction ls <;> simp_all [newLines]

end Piece

/-- The pieces that turn `old` into `new`. Lines that both share at the start or the end are kept;
what is left is divided at its midpoint, or replaced where that would leave it whole. -/
def editPieces {α : Type} [DecidableEq α] : List α → List α → List (Piece α)
  | [], [] => []
  | [], b :: new => [.added (b :: new)]
  | a :: old, [] => (a :: old).map .removed
  | a :: old, b :: new =>
    if a = b then .kept a :: editPieces old new
    else
      let shared := sharedLength (a :: old).reverse (b :: new).reverse
      if 0 < shared then
        editPieces ((a :: old).take (old.length + 1 - shared))
            ((b :: new).take (new.length + 1 - shared)) ++
          ((a :: old).drop (old.length + 1 - shared)).map .kept
      else
        match midpoint (a :: old) (b :: new) with
        | none => (a :: old).map .removed ++ [.added (b :: new)]
        | some (x, y) =>
          if 0 < x + y ∧ x + y < old.length + new.length + 2 then
            editPieces ((a :: old).take x) ((b :: new).take y) ++
              editPieces ((a :: old).drop x) ((b :: new).drop y)
          else (a :: old).map .removed ++ [.added (b :: new)]
termination_by old new => old.length + new.length
decreasing_by
  all_goals
    simp only [List.length_take, List.length_drop, List.length_cons]
    omega

section EditPieces

variable {α : Type} [DecidableEq α]

/-- Every line of the old list is kept or removed, in order. -/
theorem oldLines_editPieces (old new : List α) :
    (editPieces old new).flatMap Piece.oldLines = old := by
  fun_induction editPieces old new with
  | case1 => rfl
  | case2 => rfl
  | case3 a old => exact Piece.oldLines_map_removed (a :: old)
  | case4 a old new ih => simp [Piece.oldLines, ih]
  | case5 a old b new _ shared _ ih =>
    rw [List.flatMap_append, ih, Piece.oldLines_map_kept, List.take_append_drop]
  | case6 => simp [Piece.oldLines]
  | case7 a old b new _ _ _ x y _ _ before after =>
    rw [List.flatMap_append, before, after, List.take_append_drop]
  | case8 => simp [Piece.oldLines]

theorem newLines_editPieces (old new : List α) :
    (editPieces old new).flatMap Piece.newLines = new := by
  fun_induction editPieces old new with
  | case1 => rfl
  | case2 => simp [Piece.newLines]
  | case3 a old => exact Piece.newLines_map_removed (a :: old)
  | case4 a old new ih => simp [Piece.newLines, ih]
  | case5 a old b new _ shared _ ih =>
    have h := drop_sharedLength_reverse (a :: old) (b :: new)
    rw [List.length_cons, List.length_cons] at h
    rw [List.flatMap_append, ih, Piece.newLines_map_kept, h, List.take_append_drop]
  | case6 => simp [Piece.newLines]
  | case7 a old b new _ _ _ x y _ _ before after =>
    rw [List.flatMap_append, before, after, List.take_append_drop]
  | case8 => simp [Piece.newLines]

end EditPieces

end NixSource
