import NixSource.Text.Numeral
import NixSource.Fixture.EditScript

/-! Line differences: the lines of a text, and the script that turns those of one text into those of
another in unified form, with three lines of context. -/

namespace NixSource

/-- The lines of a text, each with the line feed, carriage return or both that end it. -/
def textLines : List Char → List (List Char)
  | [] => []
  | '\r' :: '\n' :: cs => ['\r', '\n'] :: textLines cs
  | '\n' :: cs => ['\n'] :: textLines cs
  | '\r' :: cs => ['\r'] :: textLines cs
  | c :: cs =>
    match textLines cs with
    | [] => [[c]]
    | line :: lines => (c :: line) :: lines

theorem flatten_textLines (cs : List Char) : (textLines cs).flatten = cs := by
  induction cs using textLines.induct with
  | case1 => rfl
  | case2 cs ih => simp [textLines, ih]
  | case3 cs ih => simp [textLines, ih]
  | case4 cs _ ih => simp [textLines, ih]
  | case5 c cs _ _ _ h ih => simp_all [textLines]
  | case6 c cs _ _ _ _ _ h ih => simp_all [textLines]

/-- The script between two texts has both of them in it, line by line. -/
theorem flatten_lines_editScript (old new : List Char) :
    (((editScript (textLines old) (textLines new)).filter Edit.inOld).map Edit.line).flatten = old ∧
      (((editScript (textLines old) (textLines new)).filter Edit.inNew).map Edit.line).flatten =
        new := by
  rw [oldLines_editScript, newLines_editScript, flatten_textLines, flatten_textLines]
  exact ⟨rfl, rfl⟩

/-- A script that changes nothing has one text in it, so the difference of two texts that are not the
same shows a change. -/
theorem exists_isChange_editScript {old new : List Char} (h : old ≠ new) :
    ∃ e ∈ editScript (textLines old) (textLines new), e.isChange = true := by
  obtain ⟨hold, hnew⟩ := flatten_lines_editScript old new
  refine Classical.byContradiction fun hnone => h ?_
  have hkept : ∀ e ∈ editScript (textLines old) (textLines new), e.inOld = e.inNew := by
    intro e he
    cases e with
    | keep l => rfl
    | remove l => exact absurd ⟨_, he, rfl⟩ hnone
    | add l => exact absurd ⟨_, he, rfl⟩ hnone
  rw [← hold, List.filter_congr hkept, hnew]

namespace Edit

def sign : Edit (List Char) → Char
  | keep _ => ' '
  | remove _ => '-'
  | add _ => '+'

/-- A line of unified output. A line that has no end of its own is given one, and a remark. -/
def text (e : Edit (List Char)) : List Char :=
  e.sign :: e.line ++
    match e.line.getLast? with
    | some '\n' => []
    | some '\r' => []
    | _ => "\n\\ No newline at end of file\n".toList

end Edit

/-- How many unchanged lines around a change are shown. -/
def contextLines : Nat := 3

/-- For each step whether it is a change, or follows one closely enough to be shown with it, when
`left` more lines are shown in any case. -/
def shownAfter (left : Nat) : List (Edit (List Char)) → List Bool
  | [] => []
  | e :: rest =>
    if e.isChange then true :: shownAfter contextLines rest
    else
      match left with
      | 0 => false :: shownAfter 0 rest
      | left + 1 => true :: shownAfter left rest

/-- For each step whether it is shown: a change, or close to one on either side. -/
def shown (script : List (Edit (List Char))) : List Bool :=
  List.zipWith (· || ·) (shownAfter 0 script) (shownAfter 0 script.reverse).reverse

/-- Neighbouring steps that are shown together, and how many old and new lines come before them. -/
structure Hunk where
  oldBefore : Nat
  newBefore : Nat
  edits : List (Edit (List Char))

/-- The hunks of a script, of which `old` and `new` lines have gone before. -/
def hunks (old new : Nat) : List (Edit (List Char) × Bool) → List Hunk
  | [] => []
  | (e, isShown) :: rest =>
    let later := hunks (old + e.inOld.toNat) (new + e.inNew.toNat) rest
    if isShown then
      match rest, later with
      | (_, true) :: _, h :: others => ⟨old, new, e :: h.edits⟩ :: others
      | _, _ => ⟨old, new, [e]⟩ :: later
    else later

namespace Hunk

/-- A range of lines: the number of the first, and how many there are unless that is one. An empty
range goes by the line before it. -/
def rangeText (before count : Nat) : List Char :=
  if count = 1 then decimalText (before + 1)
  else if count = 0 then decimalText before ++ [',', '0']
  else decimalText (before + 1) ++ ',' :: decimalText count

/-- A hunk in unified output: its ranges, then its lines. -/
def text (h : Hunk) : List Char :=
  "@@ -".toList ++ rangeText h.oldBefore (h.edits.filter Edit.inOld).length ++
    " +".toList ++ rangeText h.newBefore (h.edits.filter Edit.inNew).length ++
    " @@\n".toList ++ h.edits.flatMap Edit.text

end Hunk

/-- How `actual` differs from `expected`, line by line. -/
def unifiedDiff (expected actual : String) : String :=
  let script := editScript (textLines expected.toList) (textLines actual.toList)
  String.ofList ("--- expected\n+++ actual\n".toList ++
    (hunks 0 0 (script.zip (shown script))).flatMap Hunk.text)

end NixSource
