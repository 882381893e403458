import NixSource.Proofs.Binary.Literal
import NixSource.Proofs.Expr.Parts
import NixSource.Proofs.Printer.ExprDocument
import NixSource.Proofs.Syntax.PrintedTokens

/-! The lines of a printed expression. They are the same at every level and in every layout, which
only indent and end them, and no literal or name has a line end of its own. -/

namespace NixSource

def NoLineEnd (cs : List Char) : Prop :=
  ∀ c ∈ cs, c ≠ '\n' ∧ c ≠ '\r'

@[simp] theorem noLineEnd_nil : NoLineEnd [] := nofun

@[simp] theorem noLineEnd_cons (c : Char) (cs : List Char) :
    NoLineEnd (c :: cs) ↔ (c ≠ '\n' ∧ c ≠ '\r') ∧ NoLineEnd cs :=
  List.forall_mem_cons

@[simp] theorem noLineEnd_append (cs ds : List Char) :
    NoLineEnd (cs ++ ds) ↔ NoLineEnd cs ∧ NoLineEnd ds :=
  List.forall_mem_append

theorem noLineEnd_of_class {p : Char → Bool} {cs : List Char} (h : ∀ c ∈ cs, p c = true)
    (hn : p '\n' = false) (hr : p '\r' = false) : NoLineEnd cs := by
  intro c hc
  have hp := h c hc
  constructor
  · rintro rfl
    rw [hn] at hp
    cases hp
  · rintro rfl
    rw [hr] at hp
    cases hp

theorem forall_mem_intercalate {α : Type} {p : α → Prop} {sep : List α} {ls : List (List α)}
    (hsep : ∀ a ∈ sep, p a) (h : ∀ l ∈ ls, ∀ a ∈ l, p a) : ∀ a ∈ sep.intercalate ls, p a := by
  induction ls with
  | nil => nofun
  | cons l ls ih =>
    obtain ⟨hl, hls⟩ := List.forall_mem_cons.mp h
    cases ls with
    | nil => simpa using hl
    | cons l' ls =>
      rw [List.intercalate_cons_cons]
      exact List.forall_mem_append.mpr ⟨List.forall_mem_append.mpr ⟨hl, hsep⟩, ih hls⟩

section Literals

theorem noLineEnd_digits {cs : List Char} (h : ∀ c ∈ cs, c.isDigit = true) : NoLineEnd cs :=
  noLineEnd_of_class h rfl rfl

theorem noLineEnd_integerText (i : Int) : NoLineEnd (integerText i) := by
  have hdigits : NoLineEnd (decimalText i.natAbs) :=
    noLineEnd_digits fun _ => isDigit_of_mem_decimalText
  unfold integerText
  split <;> simp [hdigits]

theorem noLineEnd_integerLiteral (i : Int64) : NoLineEnd (integerLiteral i) := by
  unfold integerLiteral
  split
  · simp [noLineEnd_integerText]
  · split <;> simp [noLineEnd_integerText]

theorem noLineEnd_floatLiteral (x : FiniteFloat) : NoLineEnd x.literal := by
  obtain ⟨whole, places, hspells, hliteral⟩ := x.exists_literal_eq
  have hwhole := noLineEnd_digits hspells.isDigit_whole
  have hplaces := noLineEnd_digits hspells.isDigit_places
  rw [hliteral]
  split <;> simp [hwhole, hplaces]

theorem noLineEnd_stringLiteral (s : String) : NoLineEnd (stringLiteral s) := by
  obtain ⟨hn, hr⟩ := line_end_not_mem_escape s.toList
  have hescape : NoLineEnd (escape s.toList) := fun c hc =>
    ⟨fun h => hn (h ▸ hc), fun h => hr (h ▸ hc)⟩
  simp [stringLiteral, hescape]

theorem noLineEnd_of_isBareName {s : String} (h : isBareName s = true) : NoLineEnd s.toList :=
  fun _ hc => ⟨fun e => not_mem_of_isBareName h (c := '\n') rfl (e ▸ hc),
    fun e => not_mem_of_isBareName h (c := '\r') rfl (e ▸ hc)⟩

theorem noLineEnd_attributeName (s : String) : NoLineEnd (attributeName s) := by
  unfold attributeName
  split
  · next h => exact noLineEnd_of_isBareName h
  · exact noLineEnd_stringLiteral s

theorem noLineEnd_attributePath (names : List String) :
    NoLineEnd (names.flatMap fun n => '.' :: attributeName n) := by
  induction names with
  | nil => exact noLineEnd_nil
  | cons n names ih => simp [noLineEnd_attributeName, ih]

theorem noLineEnd_uriLiteral (u : Uri) : NoLineEnd u.literal := by
  unfold Uri.literal
  split
  · next h => exact noLineEnd_of_class (u.isBare_iff.mp h).isUriChar_of_mem rfl rfl
  · exact noLineEnd_stringLiteral u.text

theorem noLineEnd_of_splitOn {cs : List Char} (h : ∀ seg ∈ cs.splitOn '/', NoLineEnd seg) :
    NoLineEnd cs := by
  have hcs : List.intercalate ['/'] (cs.splitOn '/') = cs := List.intercalate_splitOn '/'
  exact hcs ▸ forall_mem_intercalate (by simp) h

theorem noLineEnd_of_isSearchPath {cs : List Char} (h : isSearchPath cs = true) :
    NoLineEnd cs := by
  obtain ⟨body, rfl, hsegs⟩ := exists_searchPath_eq h
  have hbody : NoLineEnd body := noLineEnd_of_splitOn fun seg hseg =>
    noLineEnd_of_class (hsegs seg hseg).2 rfl rfl
  simp [hbody]

theorem noLineEnd_of_isAnchoredPath {cs : List Char} (h : isAnchoredPath cs = true) :
    NoLineEnd cs := by
  obtain ⟨anchor, seg, segs, hsplit, hanchor, hsegs⟩ := isAnchoredPath_cases h
  have hanchor : NoLineEnd anchor := by
    rcases hanchor with rfl | rfl | rfl | rfl <;> simp
  refine noLineEnd_of_splitOn ?_
  rw [hsplit]
  exact List.forall_mem_cons.mpr
    ⟨hanchor, fun s hs => noLineEnd_of_class (hsegs s hs).2 rfl rfl⟩

theorem noLineEnd_path (p : PathLiteral) : NoLineEnd p.text.toList := by
  have hvalid := p.valid
  rw [isPathLiteral, Bool.or_eq_true] at hvalid
  exact hvalid.elim noLineEnd_of_isSearchPath noLineEnd_of_isAnchoredPath

end Literals

def Fragment.NoLineEnd : Fragment → Prop
  | chars cs => NixSource.NoLineEnd cs
  | newLine _ | paragraph _ => True

/-- The lines of a document end only where the document says so, not inside its characters. -/
def Document.NoLineEnd (d : Document) : Prop :=
  ∀ f ∈ d, f.NoLineEnd

namespace Document

@[simp] theorem noLineEnd_nil : NoLineEnd [] := nofun

@[simp] theorem noLineEnd_chars (cs : List Char) (d : Document) :
    NoLineEnd (.chars cs :: d) ↔ NixSource.NoLineEnd cs ∧ d.NoLineEnd :=
  List.forall_mem_cons

@[simp] theorem noLineEnd_newLine (depth : Nat) (d : Document) :
    NoLineEnd (.newLine depth :: d) ↔ d.NoLineEnd := by
  simp [NoLineEnd, Fragment.NoLineEnd]

@[simp] theorem noLineEnd_paragraph (depth : Nat) (d : Document) :
    NoLineEnd (.paragraph depth :: d) ↔ d.NoLineEnd := by
  simp [NoLineEnd, Fragment.NoLineEnd]

@[simp] theorem noLineEnd_append (d d' : Document) :
    NoLineEnd (d ++ d') ↔ d.NoLineEnd ∧ d'.NoLineEnd :=
  List.forall_mem_append

@[simp] theorem noLineEnd_nest (d : Document) : d.nest.NoLineEnd ↔ d.NoLineEnd := by
  induction d with
  | nil => rfl
  | cons f d ih => cases f <;> simp_all [nest, Fragment.nest]

theorem noLineEnd_intercalate {sep : Document} {ds : List Document} (hsep : sep.NoLineEnd)
    (h : ∀ d ∈ ds, d.NoLineEnd) : NoLineEnd (sep.intercalate ds) :=
  forall_mem_intercalate hsep h

/-- The lines of a document hold its characters and nothing else. -/
theorem noLineEnd_linesFrom {depth : Nat} {content : List Char} {d : Document}
    (hc : NixSource.NoLineEnd content) (h : d.NoLineEnd) :
    ∀ line ∈ d.linesFrom depth content, NixSource.NoLineEnd line.content := by
  induction d generalizing depth content with
  | nil => simpa [linesFrom, Line.content] using hc
  | cons f d ih =>
    cases f with
    | chars cs =>
      rw [noLineEnd_chars] at h
      exact ih (by simp [hc, h.1]) h.2
    | newLine next =>
      rw [noLineEnd_newLine] at h
      exact List.forall_mem_cons.mpr ⟨hc, ih NixSource.noLineEnd_nil h⟩
    | paragraph next =>
      rw [noLineEnd_paragraph] at h
      exact List.forall_mem_cons.mpr ⟨hc, List.forall_mem_cons.mpr
        ⟨NixSource.noLineEnd_nil, ih NixSource.noLineEnd_nil h⟩⟩

end Document

theorem noLineEnd_setDocument {bindings : Document} (h : bindings.NoLineEnd) :
    (setDocument bindings).NoLineEnd := by
  unfold setDocument
  split <;> simp [h]

theorem noLineEnd_listDocument {elements : List Document} (h : ∀ d ∈ elements, d.NoLineEnd) :
    (listDocument elements).NoLineEnd := by
  have hinline : Document.NoLineEnd ([.chars [' ']].intercalate elements) :=
    Document.noLineEnd_intercalate (by simp) h
  have hlines : Document.NoLineEnd (elements.flatMap fun d => .newLine 1 :: d) := by
    intro f hf
    obtain ⟨d, hd, hf⟩ := List.mem_flatMap.mp hf
    rcases List.mem_cons.mp hf with rfl | hf
    · trivial
    · exact h d hd f hf
  unfold listDocument
  split
  · simp
  · split
    · simp [hinline]
    · simp [hlines]

theorem noLineEnd_formalsDocument {items : List Document} (h : ∀ d ∈ items, d.NoLineEnd)
    (ellipsis : Bool) : (formalsDocument items ellipsis).NoLineEnd := by
  have hitems : ∀ d ∈ if ellipsis then items ++ [[.chars ['.', '.', '.']]] else items,
      d.NoLineEnd := by
    split
    · exact List.forall_mem_append.mpr ⟨h, by simp⟩
    · exact h
  unfold formalsDocument
  generalize (if ellipsis then items ++ [[.chars ['.', '.', '.']]] else items) = all at hitems
  have hall : Document.NoLineEnd ([.chars [',', ' ']].intercalate all) :=
    Document.noLineEnd_intercalate (by simp) hitems
  dsimp only
  split
  · simp
  · simp [hall]

namespace Expr

theorem noLineEnd_encloseDocument {loosest : Precedence} {e : Expr} {d : Document}
    (h : d.NoLineEnd) : (encloseDocument loosest e d).NoLineEnd := by
  unfold encloseDocument
  split <;> simp [h]

theorem noLineEnd_bindingDocument {name : String} {value : Expr} {d : Document}
    (h : d.NoLineEnd) : (bindingDocument name value d).NoLineEnd := by
  unfold bindingDocument
  split <;> simp [h, noLineEnd_attributeName]

theorem noLineEnd_bindingsDocument {b : List (String × Expr)}
    (h : ∀ part ∈ b.map Prod.snd, part.document.NoLineEnd) :
    (bindingsDocument b).NoLineEnd := by
  induction b with
  | nil => exact Document.noLineEnd_nil
  | cons p b ih =>
    obtain ⟨hp, hb⟩ := List.forall_mem_cons.mp h
    simp [bindingsDocument, noLineEnd_bindingDocument hp, ih hb]

theorem noLineEnd_elementDocuments {items : List Expr}
    (h : ∀ part ∈ items, part.document.NoLineEnd) :
    ∀ d ∈ elementDocuments items, d.NoLineEnd := by
  induction items with
  | nil => nofun
  | cons e items ih =>
    obtain ⟨he, hitems⟩ := List.forall_mem_cons.mp h
    exact List.forall_mem_cons.mpr
      ⟨(Document.noLineEnd_nest _).mpr (noLineEnd_encloseDocument he), ih hitems⟩

theorem noLineEnd_formalDocuments {items : List (Formal Expr)}
    (hname : ∀ f ∈ items, isBareName f.name = true)
    (h : ∀ part ∈ items.filterMap Formal.default, part.document.NoLineEnd) :
    ∀ d ∈ formalDocuments items, d.NoLineEnd := by
  induction items with
  | nil => nofun
  | cons f items ih =>
    obtain ⟨hf, hitems⟩ := List.forall_mem_cons.mp hname
    obtain ⟨name, d | d⟩ := f
    · exact List.forall_mem_cons.mpr ⟨by simpa using noLineEnd_of_isBareName hf, ih hitems h⟩
    · obtain ⟨hd, hrest⟩ := List.forall_mem_cons.mp h
      refine List.forall_mem_cons.mpr ⟨?_, ih hitems hrest⟩
      simp [noLineEnd_of_isBareName hf, noLineEnd_encloseDocument hd]

/-- The texts in an expression that are printed as they are given, verbatim sources and scopes of
inherited bindings, have no line ends. -/
def GivenOnOneLine (e : Expr) : Prop :=
  ∀ s, e.Contains (.verbatim s) ∨ e.Contains (.inherit (some s)) → NoLineEnd s.toList

theorem GivenOnOneLine.of_mem_parts {e part : Expr} (h : e.GivenOnOneLine) (hp : part ∈ e.parts) :
    part.GivenOnOneLine :=
  fun s hs => h s (hs.imp (.inside hp) (.inside hp))

theorem givenOnOneLine_of_parts {e : Expr}
    (hown : ∀ s, verbatim s = e ∨ inherit (some s) = e → NoLineEnd s.toList)
    (h : ∀ part ∈ e.parts, part.GivenOnOneLine) : e.GivenOnOneLine := by
  rintro s (hs | hs)
  · rcases (contains_iff _ _).mp hs with he | ⟨part, hp, hs⟩
    · exact hown s (.inl he)
    · exact h part hp s (.inl hs)
  · rcases (contains_iff _ _).mp hs with he | ⟨part, hp, hs⟩
    · exact hown s (.inr he)
    · exact h part hp s (.inr hs)

theorem noLineEnd_inheritText {scope : Option String}
    (h : (inherit scope).GivenOnOneLine) : NoLineEnd (inheritText scope) := by
  cases scope with
  | none => simp [inheritText]
  | some s => simp [inheritText, h s (.inr (.self _))]

/-- No line of a well-formed expression ends inside a literal or a name. -/
theorem noLineEnd_document (e : Expr) (hw : e.WellFormed) (hg : e.GivenOnOneLine) :
    e.document.NoLineEnd := by
  induction e using induction_parts with
  | step e ih =>
    have ih : ∀ part ∈ e.parts, part.document.NoLineEnd := fun part hp =>
      ih part hp (wellFormed_of_mem_parts hw hp) (hg.of_mem_parts hp)
    cases e with
    | null => simp [document]
    | bool b => cases b <;> simp [document]
    | int i => simp [document, noLineEnd_integerLiteral]
    | float x => simp [document, noLineEnd_floatLiteral]
    | string s => simp [document, noLineEnd_stringLiteral]
    | uri u => simp [document, noLineEnd_uriLiteral]
    | path p => simp [document, noLineEnd_path]
    | verbatim source => simp [document, hg source (.inl (.self _))]
    | inherit scope => simp [document, noLineEnd_inheritText hg]
    | attrs b => exact noLineEnd_setDocument (noLineEnd_bindingsDocument ih)
    | recAttrs b =>
      simp [document, noLineEnd_setDocument (noLineEnd_bindingsDocument ih)]
    | list items => exact noLineEnd_listDocument (noLineEnd_elementDocuments ih)
    | update l r =>
      obtain ⟨hl, hr⟩ : l.document.NoLineEnd ∧ r.document.NoLineEnd := by simpa [parts] using ih
      simp [document, noLineEnd_encloseDocument, hl, hr]
    | apply f a =>
      obtain ⟨hf, ha⟩ : f.document.NoLineEnd ∧ a.document.NoLineEnd := by simpa [parts] using ih
      simp [document, noLineEnd_encloseDocument, hf, ha]
    | letIn b body =>
      obtain ⟨hb, hbody⟩ := List.forall_mem_append.mp ih
      have hbody : body.document.NoLineEnd := by simpa using hbody
      simp [document, noLineEnd_bindingsDocument hb, hbody]
    | lambda params body =>
      obtain ⟨hp, hbody⟩ := List.forall_mem_append.mp ih
      have hbody : body.document.NoLineEnd := by simpa using hbody
      cases params with
      | name x =>
        have hx := noLineEnd_of_isBareName ((checkArgumentName_eq_ok_iff x).mp hw.1)
        simp [document, hx, hbody]
      | formals items ellipsis =>
        have hitems := noLineEnd_formalDocuments (isBareName_of_checkFormals hw.1) hp
        simp [document, noLineEnd_formalsDocument hitems, hbody]
    | ifThenElse c y n =>
      obtain ⟨hc, hy, hn⟩ : c.document.NoLineEnd ∧ y.document.NoLineEnd ∧ n.document.NoLineEnd := by
        simpa [parts] using ih
      simp [document, noLineEnd_encloseDocument, hc, hy, hn]
    | withScope s body =>
      obtain ⟨hs, hbody⟩ : s.document.NoLineEnd ∧ body.document.NoLineEnd := by
        simpa [parts] using ih
      simp [document, noLineEnd_encloseDocument, hs, hbody]
    | assertThen c body =>
      obtain ⟨hc, hbody⟩ : c.document.NoLineEnd ∧ body.document.NoLineEnd := by
        simpa [parts] using ih
      simp [document, noLineEnd_encloseDocument, hc, hbody]
    | importOf p =>
      have hp : p.document.NoLineEnd := by simpa [parts] using ih
      simp [document, noLineEnd_encloseDocument, hp]
    | select s p fallback =>
      cases fallback with
      | none =>
        have hs : s.document.NoLineEnd := by simpa [parts] using ih
        simp [document, noLineEnd_encloseDocument, noLineEnd_attributePath, hs]
      | some d =>
        obtain ⟨hs, hd⟩ : s.document.NoLineEnd ∧ d.document.NoLineEnd := by simpa [parts] using ih
        simp [document, noLineEnd_encloseDocument, noLineEnd_attributePath, hs, hd]

/-- The lines of an expression depend on nothing but the expression: every level and every layout
give the same lines, and add only their indentation and their ends. In a well-formed expression
whose verbatim texts have no line ends, no line has one inside it. -/
theorem source_eq_joinLines (e : Expr) :
    ∃ (first : List Char) (rest : List Line),
      (∀ level layout, e.source level layout =
        String.ofList (joinLines layout level (.indented 0 first :: rest))) ∧
      (e.WellFormed → e.GivenOnOneLine →
        ∀ line ∈ Line.indented 0 first :: rest, NoLineEnd line.content) := by
  obtain ⟨first, rest, hlines⟩ := Document.linesFrom_eq_cons 0 [] e.document
  refine ⟨first, rest, fun level layout => ?_, fun hw hg => ?_⟩
  · rw [← hlines, Document.joinLines_linesFrom, text_document]
    rfl
  · rw [← hlines]
    exact Document.noLineEnd_linesFrom noLineEnd_nil (noLineEnd_document e hw hg)

/-- A string of two lines and a verbatim name, in a set that makes the list around it stand on
several lines. -/
theorem source_eq_joinLines_list :
    (list [attrs [("a", verbatim "x")], string "b\nc"]).WellFormed ∧
    (list [attrs [("a", verbatim "x")], string "b\nc"]).GivenOnOneLine ∧
    ∃ (first : List Char) (rest : List Line),
      (∀ level layout, (list [attrs [("a", verbatim "x")], string "b\nc"]).source level layout =
        String.ofList (joinLines layout level (.indented 0 first :: rest))) ∧
      ∀ line ∈ Line.indented 0 first :: rest, NoLineEnd line.content := by
  have hw : (list [attrs [("a", verbatim "x")], string "b\nc"]).WellFormed := by
    simp [WellFormed, WellFormedElements, WellFormedBindings]
  have hx : (verbatim "x").GivenOnOneLine := givenOnOneLine_of_parts (by simp) (by simp [parts])
  have hstring : (string "b\nc").GivenOnOneLine := givenOnOneLine_of_parts (by simp) (by simp [parts])
  have hset : (attrs [("a", verbatim "x")]).GivenOnOneLine :=
    givenOnOneLine_of_parts (by simp) (by simpa [parts] using hx)
  have hg : (list [attrs [("a", verbatim "x")], string "b\nc"]).GivenOnOneLine :=
    givenOnOneLine_of_parts (by simp) (by simpa [parts] using ⟨hset, hstring⟩)
  obtain ⟨first, rest, hsource, hlines⟩ := source_eq_joinLines _
  exact ⟨hw, hg, first, rest, hsource, hlines hw hg⟩

end Expr

end NixSource
