import NixSource.Fixture.Placed

/-! Edit scripts: the lines of two lists in one sequence, where removals come before additions and
each is about one line. The lines of either list are in it in order. -/

namespace NixSource

/-- A step of a script, with the line that it is about. -/
inductive Edit (α : Type) where
  | keep (line : α)
  | remove (line : α)
  | add (line : α)
deriving DecidableEq

namespace Edit

variable {α : Type}

/-- Whether the line is in one list only. -/
def isChange : Edit α → Bool
  | keep _ => false
  | remove _ | add _ => true

def inOld : Edit α → Bool
  | keep _ | remove _ => true
  | add _ => false

def inNew : Edit α → Bool
  | keep _ | add _ => true
  | remove _ => false

def line : Edit α → α
  | keep l | remove l | add l => l

/-- The steps of a script. The lines of `waiting` are added at the next kept line, behind those that
are removed up to there. -/
def ofPieces (waiting : List α) : List (Piece α) → List (Edit α)
  | [] => waiting.map add
  | .kept l :: rest => waiting.map add ++ keep l :: ofPieces [] rest
  | .removed l :: rest => remove l :: ofPieces waiting rest
  | .added ls :: rest => ofPieces (waiting ++ ls) rest

@[simp] theorem filter_inOld_map_add (ls : List α) : (ls.map add).filter inOld = [] := by
  induction ls <;> simp_all [inOld]

@[simp] theorem filter_inNew_map_add (ls : List α) : (ls.map add).filter inNew = ls.map add := by
  induction ls <;> simp_all [inNew]

theorem oldLines_ofPieces (waiting : List α) (ps : List (Piece α)) :
    ((ofPieces waiting ps).filter inOld).map line = ps.flatMap Piece.oldLines := by
  fun_induction ofPieces waiting ps with
  | case1 waiting => simp
  | case2 waiting l rest ih => simp [List.filter_cons, inOld, line, Piece.oldLines, ih]
  | case3 waiting l rest ih => simp [List.filter_cons, inOld, line, Piece.oldLines, ih]
  | case4 waiting ls rest ih => simp [Piece.oldLines, ih]

theorem newLines_ofPieces (waiting : List α) (ps : List (Piece α)) :
    ((ofPieces waiting ps).filter inNew).map line =
      waiting ++ ps.flatMap Piece.newLines := by
  fun_induction ofPieces waiting ps with
  | case1 waiting => simp [Function.comp_def, line]
  | case2 waiting l rest ih =>
    simp [List.filter_cons, Function.comp_def, inNew, line, Piece.newLines, ih]
  | case3 waiting l rest ih => simp [inNew, Piece.newLines, ih]
  | case4 waiting ls rest ih => simp [Piece.newLines, ih]

end Edit

section EditScript

variable {α : Type} [DecidableEq α] (old new : List α)

def editScript : List (Edit α) :=
  Edit.ofPieces [] (settle [] (editPieces old new))

theorem oldLines_editScript : ((editScript old new).filter Edit.inOld).map Edit.line = old := by
  simp [editScript, Edit.oldLines_ofPieces, oldLines_settle, oldLines_editPieces]

theorem newLines_editScript : ((editScript old new).filter Edit.inNew).map Edit.line = new := by
  simp [editScript, Edit.newLines_ofPieces, newLines_settle, newLines_editPieces]

end EditScript

end NixSource
