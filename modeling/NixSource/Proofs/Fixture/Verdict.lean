import NixSource.Proofs.Fixture.Loading
import NixSource.Proofs.Printer.Lines

/-! When a test case passes. Its file is compared without the line end that it may have, and
neither a printed document nor the message of an error has one, so a file that records the real
outcome makes the case pass, and no other file does. -/

namespace NixSource

/-- The last character, if there is one, ends no line. -/
def NoFinalLineEnd (cs : List Char) : Prop :=
  cs.getLast? ≠ some '\n' ∧ cs.getLast? ≠ some '\r'

theorem NoLineEnd.noFinalLineEnd {cs : List Char} (h : NoLineEnd cs) : NoFinalLineEnd cs :=
  ⟨fun hlast => (h _ (List.mem_of_getLast? hlast)).1 rfl,
    fun hlast => (h _ (List.mem_of_getLast? hlast)).2 rfl⟩

/-- Only the end of a text counts. -/
theorem NoFinalLineEnd.append (cs : List Char) {ds : List Char} (h : NoFinalLineEnd ds)
    (hne : ds ≠ []) : NoFinalLineEnd (cs ++ ds) := by
  rwa [NoFinalLineEnd, List.getLast?_append_of_ne_nil cs hne]

/-- A text as it may stand in a file: as it is, or with a line end of any kind. -/
def asRecorded (s : String) : List String :=
  [s, s ++ "\n", s ++ "\r", s ++ "\r\n"]

/-- A text without its last character, if that is `c`. -/
def dropFinal (c : Char) (cs : List Char) : List Char :=
  if cs.getLast? = some c then cs.dropLast else cs

theorem dropFinal_eq_iff {c : Char} {cs ds : List Char} (h : ds.getLast? ≠ some c) :
    dropFinal c cs = ds ↔ cs = ds ∨ cs = ds ++ [c] := by
  unfold dropFinal
  split
  · next hlast =>
    obtain ⟨body, rfl⟩ := List.getLast?_eq_some_iff.mp hlast
    have hne : body ++ [c] ≠ ds := fun he => h (he ▸ hlast)
    simp [hne]
  · next hlast =>
    have hne : cs ≠ ds ++ [c] := by
      rintro rfl
      simp at hlast
    simp [hne]

theorem toList_dropLineEnd (f : String) :
    (dropLineEnd f).toList = dropFinal '\r' (dropFinal '\n' f.toList) := by
  rw [dropLineEnd, String.toList_ofList]
  rfl

/-- The files that are compared as `s`. -/
theorem dropLineEnd_eq_iff {f s : String} (h : NoFinalLineEnd s.toList) :
    dropLineEnd f = s ↔ f ∈ asRecorded s := by
  have hreturn : (s.toList ++ ['\r']).getLast? ≠ some '\n' := by simp
  rw [← String.toList_inj, toList_dropLineEnd, dropFinal_eq_iff h.2, dropFinal_eq_iff h.1,
    dropFinal_eq_iff hreturn]
  simp only [asRecorded, List.mem_cons, List.not_mem_nil, or_false, ← String.toList_inj,
    String.toList_append, List.append_assoc]
  exact or_assoc

section Documents

variable (layout : Layout) (level : Nat)

theorem noFinalLineEnd_listText (elements : List (List Char)) :
    NoFinalLineEnd (listText layout level elements) := by
  have hbracket : NoFinalLineEnd [']'] := ⟨by decide, by decide⟩
  unfold listText
  split
  · exact ⟨by decide, by decide⟩
  · split
    · exact NoFinalLineEnd.append _ ⟨by decide, by decide⟩ (by simp)
    · exact hbracket.append _ (by simp)

theorem noFinalLineEnd_setText (bindings : List Char) :
    NoFinalLineEnd (setText layout level bindings) := by
  have hbrace : NoFinalLineEnd ['}'] := ⟨by decide, by decide⟩
  unfold setText
  split
  · exact ⟨by decide, by decide⟩
  · exact hbrace.append _ (by simp)

end Documents

theorem image_number {n : JsonNumber} {e : Expr} (h : n.toValue.image = some e) :
    (∃ i, e = .int i) ∨ ∃ x, e = .float x := by
  cases n with
  | natural n =>
    rw [JsonNumber.toValue_natural] at h
    split at h <;> cases h <;> exact .inl ⟨_, rfl⟩
  | negative i =>
    cases h
    exact .inl ⟨i, rfl⟩
  | float x =>
    rw [JsonNumber.toValue_float, Value.image, Option.map_eq_some_iff] at h
    obtain ⟨y, -, rfl⟩ := h
    exact .inr ⟨y, rfl⟩

/-- A document is printed with a closing bracket or brace at the end, or on one line. -/
theorem noFinalLineEnd_source {j : Json} {layout : Layout} {s : String}
    (h : j.toValue.toSource layout = .ok s) : NoFinalLineEnd s.toList := by
  rw [Value.toSource] at h
  cases he : j.toValue.toExpr Value.defaultDepthLimit with
  | error e => simp [he, Except.map] at h
  | ok e =>
    obtain rfl : e.source 0 layout = s := by simpa [he, Except.map] using h
    have himage := (Value.fault_and_image_of_toExpr he).2
    rw [Expr.source, String.toList_ofList]
    cases j with
    | null =>
      cases himage
      exact NoLineEnd.noFinalLineEnd (by simp [Expr.print])
    | bool b =>
      cases himage
      cases b <;> exact NoLineEnd.noFinalLineEnd (by simp [Expr.print])
    | number n =>
      obtain ⟨i, rfl⟩ | ⟨x, rfl⟩ := image_number himage
      · exact (noLineEnd_integerLiteral i).noFinalLineEnd
      · exact (noLineEnd_floatLiteral x).noFinalLineEnd
    | string s =>
      cases himage
      exact (noLineEnd_stringLiteral s).noFinalLineEnd
    | array items =>
      cases himage
      exact noFinalLineEnd_listText layout 0 _
    | object members =>
      cases himage
      exact noFinalLineEnd_setText layout 0 _

theorem noFinalLineEnd_append {s t : String} (h : NoFinalLineEnd t.toList) (hne : t ≠ "") :
    NoFinalLineEnd (s ++ t).toList := by
  rw [String.toList_append]
  exact h.append s.toList (by simpa using hne)

/-- A message ends in words of its own, whatever the keys in its location are. -/
theorem noFinalLineEnd_message (e : ConversionError) : NoFinalLineEnd e.message.toList := by
  unfold ConversionError.message
  cases e with
  | tooLarge location n => exact noFinalLineEnd_append (by simp [NoFinalLineEnd]) (by simp)
  | notFinite location x => exact noFinalLineEnd_append (by simp [NoFinalLineEnd]) (by simp)
  | tooDeep location limit => exact noFinalLineEnd_append (by simp [NoFinalLineEnd]) (by simp)
  | undefinedRoot => simp [NoFinalLineEnd]

/-- What a conversion comes to is what is expected of it. -/
inductive Expectation.IsMetBy (outcome : Except ConversionError String) : Expectation → Prop where
  | output {text : String} : outcome = .ok text → IsMetBy outcome (.output text)
  | error {e : ConversionError} : outcome = .error e → IsMetBy outcome (.error e.message)

theorem TestCase.run_eq_ok_iff (c : TestCase) :
    c.run = .ok () ↔ c.expectation.IsMetBy c.outcome := by
  unfold TestCase.run
  constructor
  · intro h
    split at h
    · next expected actual hexpected hactual =>
      split at h
      · next heq =>
        rw [hexpected, hactual, heq]
        exact .output rfl
      · cases h
    · cases h
    · next expected e hexpected he =>
      split at h
      · next heq =>
        rw [hexpected, he, heq]
        exact .error rfl
      · cases h
    · cases h
  · intro h
    generalize c.expectation = expectation at h
    cases h with
    | output houtcome => simp [houtcome]
    | error houtcome => simp [houtcome]

/-- A case passes exactly if it loads and its document comes to what is expected. -/
theorem runCase_eq_none_iff {entries : Bindings FileTree} {path : String} :
    runCase path (.directory entries) = none ↔
      ∃ c, LoadsAs entries path c ∧ c.expectation.IsMetBy c.outcome := by
  simp only [← TestCase.loadFrom_eq_ok_iff, ← TestCase.run_eq_ok_iff, runCase]
  cases TestCase.loadFrom (.ok (.directory entries)) path with
  | error e => simp
  | ok c => cases hrun : c.run <;> simp [hrun]

namespace Tally

/-- `after` counts one case more than `before`, which passed. -/
structure CountsPass (before after : Tally) : Prop where
  total : after.total = before.total + 1
  passed : after.passed = before.passed + 1
  failed : after.failed = before.failed
  failures : after.failures = before.failures

/-- `after` counts one case more than `before`, which failed and is last among the failures. -/
structure CountsFailure (before after : Tally) (f : TestFailure) : Prop where
  total : after.total = before.total + 1
  passed : after.passed = before.passed
  failed : after.failed = before.failed + 1
  failures : after.failures = before.failures ++ [f]

variable {t t' : Tally} {f : TestFailure} {path : String} {c : List String × FileTree}

theorem countsPass_addPass (t : Tally) : CountsPass t t.addPass :=
  ⟨rfl, rfl, rfl, rfl⟩

theorem countsFailure_addFailure (t : Tally) (f : TestFailure) :
    CountsFailure t (t.addFailure f) f :=
  ⟨rfl, rfl, rfl, rfl⟩

theorem CountsFailure.not_countsPass (h : CountsFailure t t' f) : ¬ CountsPass t t' := by
  intro h'
  have hfailed := h.failed
  rw [h'.failed] at hfailed
  omega

theorem countsPass_addCase_iff :
    CountsPass t (t.addCase path c) ↔ runCase (c.1.foldl joinPath path) c.2 = none := by
  unfold addCase
  cases runCase (c.1.foldl joinPath path) c.2 with
  | none => exact iff_of_true t.countsPass_addPass rfl
  | some f => exact iff_of_false (t.countsFailure_addFailure f).not_countsPass nofun

/-- A case passes or fails, and is counted as one of the two. -/
theorem exists_countsFailure_addCase_iff :
    (∃ f, CountsFailure t (t.addCase path c) f) ↔ ¬ CountsPass t (t.addCase path c) := by
  constructor
  · rintro ⟨f, h⟩
    exact h.not_countsPass
  · unfold addCase
    cases runCase (c.1.foldl joinPath path) c.2 with
    | none => exact fun h => absurd t.countsPass_addPass h
    | some f => exact fun _ => ⟨f, t.countsFailure_addFailure f⟩

end Tally

/-- The file records the outcome of a conversion, with or without a line end. -/
def Expectation.RecordsOutcome (outcome : Except ConversionError String)
    (recorded : Expectation) : Prop :=
  (∃ s, outcome = .ok s ∧ ∃ f ∈ asRecorded s, recorded = .output f) ∨
    ∃ e, outcome = .error e ∧ ∃ f ∈ asRecorded e.message, recorded = .error f

/-- The expectation of a file is met exactly if the file records the outcome. -/
theorem isMetBy_trim_iff {layout : Layout} {j : Json} {recorded : Expectation} :
    recorded.trim.IsMetBy (j.toValue.toSource layout) ↔
      recorded.RecordsOutcome (j.toValue.toSource layout) := by
  constructor
  · intro h
    cases recorded with
    | output f =>
      cases h with
      | output houtcome =>
        have hf := (dropLineEnd_eq_iff (noFinalLineEnd_source houtcome)).mp rfl
        exact .inl ⟨_, houtcome, f, hf, rfl⟩
    | error f =>
      generalize htrim : (Expectation.error f).trim = trimmed at h
      cases h with
      | output => cases htrim
      | @error e houtcome =>
        have hdrop : dropLineEnd f = e.message := by simpa [Expectation.trim] using htrim
        have hf := (dropLineEnd_eq_iff (noFinalLineEnd_message e)).mp hdrop
        exact .inr ⟨e, houtcome, f, hf, rfl⟩
  · rintro (⟨s, houtcome, f, hf, rfl⟩ | ⟨e, houtcome, f, hf, rfl⟩)
    · rw [Expectation.trim, (dropLineEnd_eq_iff (noFinalLineEnd_source houtcome)).mpr hf]
      exact .output houtcome
    · rw [Expectation.trim, (dropLineEnd_eq_iff (noFinalLineEnd_message e)).mpr hf]
      exact .error houtcome

/-- A directory that holds a test case is counted as passed exactly if its file records what the
document really comes to, with or without a line end, and as failed otherwise. Printed documents and
messages have no line end of their own. -/
theorem countsPass_addCase_iff_recordsOutcome {entries : Bindings FileTree} {text : String}
    {j : Json} {recorded : Expectation} (hinput : HoldsText entries inputFile text)
    (hread : Json.read text = .ok j) (hrecords : Records entries recorded) (path : String)
    (names : List String) (t : Tally) :
    (Tally.CountsPass t (t.addCase path (names, .directory entries)) ↔
      recorded.RecordsOutcome (j.toValue.toSource {})) ∧
    ((∃ f, Tally.CountsFailure t (t.addCase path (names, .directory entries)) f) ↔
      ¬ recorded.RecordsOutcome (j.toValue.toSource {})) ∧
    (∀ s, j.toValue.toSource {} = .ok s → NoFinalLineEnd s.toList) ∧
    ∀ e : ConversionError, NoFinalLineEnd e.message.toList := by
  have hpass : Tally.CountsPass t (t.addCase path (names, .directory entries)) ↔
      recorded.RecordsOutcome (j.toValue.toSource {}) := by
    rw [Tally.countsPass_addCase_iff, runCase_eq_none_iff, ← isMetBy_trim_iff]
    constructor
    · rintro ⟨c, hloads, hmet⟩
      obtain rfl := hloads.eq (.mk hinput hread hrecords)
      exact hmet
    · exact fun hmet => ⟨_, .mk hinput hread hrecords, hmet⟩
  refine ⟨hpass, ?_, fun _ => noFinalLineEnd_source, noFinalLineEnd_message⟩
  rw [Tally.exists_countsFailure_addCase_iff, hpass]

/-- The line end of the file does not count. -/
theorem countsPass_addCase_iff_recordsOutcome_one :
    let entries : Bindings FileTree :=
      [(inputFile, .file ⟨#[49]⟩), (outputFile, .file ⟨#[49, 13, 10]⟩)]
    HoldsText entries inputFile "1" ∧ Json.read "1" = .ok (.number (.natural 1)) ∧
      Records entries (.output "1\r\n") ∧
      Tally.CountsPass {} (Tally.addCase "cases" {} (["one"], .directory entries)) := by
  intro entries
  have hinput : HoldsText entries inputFile "1" := ⟨_, rfl, rfl⟩
  have hread : Json.read "1" = .ok (.number (.natural 1)) := by rfl
  have hrecords : Records entries (.output "1\r\n") := .output ⟨_, rfl, rfl⟩ rfl
  refine ⟨hinput, hread, hrecords, ?_⟩
  refine (countsPass_addCase_iff_recordsOutcome hinput hread hrecords "cases" ["one"] {}).1.mpr ?_
  exact .inl ⟨"1", rfl, "1\r\n", by decide, rfl⟩

end NixSource
