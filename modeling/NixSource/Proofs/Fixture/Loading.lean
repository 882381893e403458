import NixSource.Fixture.Suite
import NixSource.Proofs.Value.WellFormed

/-! When a directory loads as a test case, and as which one: its input has to be the text of a
document, and exactly one of the two files with an expectation has to be there, as a text. -/

namespace NixSource

/-- The entry of this name is a file with this text. -/
def HoldsText (entries : Bindings FileTree) (name text : String) : Prop :=
  ∃ content, entries.get? name = some (.file content) ∧ String.fromUTF8? content = some text

/-- The expectation that the files of a directory record, as they stand. -/
inductive Records (entries : Bindings FileTree) : Expectation → Prop where
  | output {text : String} : HoldsText entries outputFile text → entries.get? errorFile = none →
      Records entries (.output text)
  | error {text : String} : HoldsText entries errorFile text → entries.get? outputFile = none →
      Records entries (.error text)

/-- An expectation without the line end at the end of its file. -/
def Expectation.trim : Expectation → Expectation
  | output text => output (dropLineEnd text)
  | error text => error (dropLineEnd text)

/-- The test case that a directory holds, loaded by `path`. -/
inductive LoadsAs (entries : Bindings FileTree) (path : String) : TestCase → Prop where
  | mk {text : String} {j : Json} {recorded : Expectation} : HoldsText entries inputFile text →
      Json.read text = .ok j → Records entries recorded →
        LoadsAs entries path ⟨lastName path, path, j, recorded.trim⟩

namespace FileTree

/-- Names that are steps down a path. -/
def IsStep (name : String) : Prop :=
  name ≠ "" ∧ name ≠ "." ∧ name ≠ ".."

theorem isStep_inputFile : IsStep inputFile := by simp [IsStep, inputFile]

theorem isStep_outputFile : IsStep outputFile := by simp [IsStep, outputFile]

theorem isStep_errorFile : IsStep errorFile := by simp [IsStep, errorFile]

theorem entry_directory {name : String} (hname : IsStep name) (entries : Bindings FileTree) :
    (directory entries).entry name =
      match entries.get? name with
      | some child => .ok child
      | none => .error .missing := by
  obtain ⟨hempty, hpoint, hpoints⟩ := hname
  rw [entry, follow]
  simp only [beq_iff_eq, hempty, hpoint, hpoints, if_false, Bool.or_eq_true, or_self]
  cases entries.get? name <;> rfl

end FileTree

namespace TestCase

open Datum (exists_of_bind_ok)
open FileTree (IsStep entry_directory isStep_inputFile isStep_outputFile isStep_errorFile)

variable {entries : Bindings FileTree} {path name text : String}

theorem readFile_eq_ok_iff (hname : IsStep name) :
    readFile (.ok (.directory entries)) path name = .ok text ↔ HoldsText entries name text := by
  simp only [readFile, Except.bind, entry_directory hname, HoldsText]
  cases entries.get? name with
  | none => simp
  | some child =>
    cases child with
    | directory inner => simp [FileTree.text]
    | file content => cases hs : String.fromUTF8? content <;> simp [FileTree.text, hs]

theorem present_directory (hname : IsStep name) :
    present (.ok (.directory entries)) name = (entries.get? name).isSome := by
  simp only [present, Except.bind, entry_directory hname]
  cases entries.get? name <;> rfl

theorem isSome_of_holdsText (h : HoldsText entries name text) : (entries.get? name).isSome := by
  obtain ⟨content, hcontent, -⟩ := h
  rw [hcontent]
  rfl

theorem parseInput_eq_ok_iff {j : Json} :
    parseInput path text = .ok j ↔ Json.read text = .ok j := by
  unfold parseInput
  cases Json.read text <;> simp

theorem readExpectation_eq_ok_iff {e : Expectation} :
    readExpectation (.ok (.directory entries)) path = .ok e ↔
      ∃ recorded, Records entries recorded ∧ e = recorded.trim := by
  constructor
  · intro h
    rw [readExpectation, present_directory isStep_outputFile,
      present_directory isStep_errorFile] at h
    split at h
    · cases h
    · cases h
    · next herror =>
      obtain ⟨text, htext, h⟩ := exists_of_bind_ok h
      cases h
      rw [readFile_eq_ok_iff isStep_outputFile] at htext
      exact ⟨.output text, .output htext (by simpa using herror), rfl⟩
    · next houtput _ =>
      obtain ⟨text, htext, h⟩ := exists_of_bind_ok h
      cases h
      rw [readFile_eq_ok_iff isStep_errorFile] at htext
      exact ⟨.error text, .error htext (by simpa using houtput), rfl⟩
  · rintro ⟨recorded, hrecords, rfl⟩
    rw [readExpectation, present_directory isStep_outputFile, present_directory isStep_errorFile]
    cases hrecords with
    | output htext herror =>
      rw [isSome_of_holdsText htext, herror, (readFile_eq_ok_iff isStep_outputFile).mpr htext]
      rfl
    | error htext houtput =>
      rw [isSome_of_holdsText htext, houtput, (readFile_eq_ok_iff isStep_errorFile).mpr htext]
      rfl

/-- A directory loads exactly if it holds a test case, and then as that one. -/
theorem loadFrom_eq_ok_iff {c : TestCase} :
    loadFrom (.ok (.directory entries)) path = .ok c ↔ LoadsAs entries path c := by
  constructor
  · intro h
    obtain ⟨text, htext, h⟩ := exists_of_bind_ok h
    obtain ⟨j, hj, h⟩ := exists_of_bind_ok h
    obtain ⟨e, he, h⟩ := exists_of_bind_ok h
    cases h
    obtain ⟨recorded, hrecords, rfl⟩ := readExpectation_eq_ok_iff.mp he
    exact .mk ((readFile_eq_ok_iff isStep_inputFile).mp htext) (parseInput_eq_ok_iff.mp hj) hrecords
  · rintro ⟨htext, hj, hrecords⟩
    rw [loadFrom, (readFile_eq_ok_iff isStep_inputFile).mpr htext]
    change (parseInput path _ >>= _) = _
    rw [parseInput_eq_ok_iff.mpr hj]
    change (readExpectation _ path >>= _) = _
    rw [readExpectation_eq_ok_iff.mpr ⟨_, hrecords, rfl⟩]
    rfl

end TestCase

/-- A directory holds one test case at most. -/
theorem LoadsAs.eq {entries : Bindings FileTree} {path : String} {c c' : TestCase}
    (h : LoadsAs entries path c) (h' : LoadsAs entries path c') : c = c' := by
  have hc := TestCase.loadFrom_eq_ok_iff.mpr h
  rw [TestCase.loadFrom_eq_ok_iff.mpr h'] at hc
  cases hc
  rfl

/-- Why there is no test case in a directory: its input is no text or the text of no document, or
not exactly one expectation is there, or that one is no text. -/
inductive Unloadable (entries : Bindings FileTree) : Prop where
  | inputNotText : (¬∃ text, HoldsText entries inputFile text) → Unloadable entries
  | inputNotJson {text : String} {e : JsonError} : HoldsText entries inputFile text →
      Json.read text = .error e → Unloadable entries
  | both {output error : FileTree} : entries.get? outputFile = some output →
      entries.get? errorFile = some error → Unloadable entries
  | neither : entries.get? outputFile = none → entries.get? errorFile = none → Unloadable entries
  | outputNotText {output : FileTree} : entries.get? outputFile = some output →
      (¬∃ text, HoldsText entries outputFile text) → Unloadable entries
  | errorNotText {error : FileTree} : entries.get? errorFile = some error →
      (¬∃ text, HoldsText entries errorFile text) → Unloadable entries

theorem HoldsText.eq {entries : Bindings FileTree} {name text text' : String}
    (h : HoldsText entries name text) (h' : HoldsText entries name text') : text = text' := by
  obtain ⟨content, hcontent, htext⟩ := h
  obtain ⟨content', hcontent', htext'⟩ := h'
  rw [hcontent] at hcontent'
  cases hcontent'
  rw [htext] at htext'
  exact Option.some.inj htext'

theorem not_loadsAs_of_unloadable {entries : Bindings FileTree} (h : Unloadable entries)
    (path : String) : ¬∃ c, LoadsAs entries path c := by
  rintro ⟨_, htext, hread, hrecords⟩
  cases h with
  | inputNotText hnot => exact hnot ⟨_, htext⟩
  | inputNotJson htext' hread' =>
    rw [htext.eq htext', hread'] at hread
    cases hread
  | both houtput herror => cases hrecords <;> simp_all
  | neither houtput herror => cases hrecords <;> simp_all [HoldsText]
  | outputNotText houtput hnot =>
    cases hrecords with
    | output htext _ => exact hnot ⟨_, htext⟩
    | error _ hnone => simp [houtput] at hnone
  | errorNotText herror hnot =>
    cases hrecords with
    | output _ hnone => simp [herror] at hnone
    | error htext _ => exact hnot ⟨_, htext⟩

/-- There are no other reasons. -/
theorem unloadable_iff (entries : Bindings FileTree) (path : String) :
    Unloadable entries ↔ ¬∃ c, LoadsAs entries path c := by
  refine ⟨fun h => not_loadsAs_of_unloadable h path, fun hnot => ?_⟩
  by_cases hinput : ∃ text, HoldsText entries inputFile text
  · obtain ⟨text, htext⟩ := hinput
    cases hread : Json.read text with
    | error e => exact .inputNotJson htext hread
    | ok j =>
      have hrecords : ∀ recorded, ¬Records entries recorded := fun recorded h =>
        hnot ⟨_, .mk htext hread h⟩
      cases houtput : entries.get? outputFile with
      | none =>
        cases herror : entries.get? errorFile with
        | none => exact .neither houtput herror
        | some error =>
          exact .errorNotText herror fun ⟨text, h⟩ => hrecords _ (.error h houtput)
      | some output =>
        cases herror : entries.get? errorFile with
        | none => exact .outputNotText houtput fun ⟨text, h⟩ => hrecords _ (.output h herror)
        | some error => exact .both houtput herror
  · exact .inputNotText hinput

end NixSource
