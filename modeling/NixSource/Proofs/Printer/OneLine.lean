import NixSource.Proofs.Printer.Lines

/-! Which expressions are printed on one line. A few forms bring a line end of their own; an
expression is on one line if it is of none of them and all its parts are on one line, so if nothing
in it is of such a form. Literals and names never matter. -/

namespace NixSource

theorem NoLineEnd.not_mem {cs : List Char} (h : NoLineEnd cs) : '\n' ∉ cs :=
  fun hmem => (h '\n' hmem).1 rfl

namespace Document

@[simp] theorem isInline_nil : isInline [] = true := rfl

@[simp] theorem isInline_chars (cs : List Char) (d : Document) :
    isInline (.chars cs :: d) = (!cs.contains '\n' && d.isInline) := rfl

@[simp] theorem isInline_newLine (depth : Nat) (d : Document) :
    isInline (.newLine depth :: d) = false := rfl

@[simp] theorem isInline_paragraph (depth : Nat) (d : Document) :
    isInline (.paragraph depth :: d) = false := rfl

@[simp] theorem isInline_append (d d' : Document) :
    isInline (d ++ d') = (d.isInline && d'.isInline) :=
  List.all_append

@[simp] theorem isInline_nest (d : Document) : d.nest.isInline = d.isInline := by
  induction d with
  | nil => rfl
  | cons f d ih => cases f <;> simp_all [nest, Fragment.nest]

theorem isInline_intercalate {sep : Document} (hsep : sep.isInline = true) (ds : List Document) :
    isInline (sep.intercalate ds) = ds.all isInline := by
  induction ds with
  | nil => rfl
  | cons d ds ih => cases ds <;> simp_all

end Document

/-- A list with an element of several lines has one itself, as its brackets are on other lines. -/
theorem isInline_listDocument (elements : List Document) :
    (listDocument elements).isInline = elements.all Document.isInline := by
  unfold listDocument
  split
  · next h => simp [List.isEmpty_iff.mp h]
  · split
    · next h => simp [Document.isInline_intercalate, h]
    · next h => simp [h]

theorem isInline_setDocument (bindings : Document) :
    (setDocument bindings).isInline = bindings.isEmpty := by
  unfold setDocument
  split
  · next h => simp [h]
  · next h => simp [h]

namespace Expr

theorem isInline_encloseDocument (loosest : Precedence) (e : Expr) (d : Document) :
    (encloseDocument loosest e d).isInline = d.isInline := by
  unfold encloseDocument
  split <;> simp

theorem all_isInline_elementDocuments (items : List Expr) :
    (elementDocuments items).all Document.isInline = items.all (·.document.isInline) := by
  induction items with
  | nil => rfl
  | cons e items ih => simp [elementDocuments, isInline_encloseDocument, ih]

/-- Whether an expression has a line end of its own, whatever its parts are: sets with bindings,
what has its body on a line below, and texts that are printed as they are given. -/
def breaksLine : Expr → Bool
  | attrs b | recAttrs b => !b.isEmpty
  | letIn _ _ | lambda (.formals _ _) _ | withScope _ _ | assertThen _ _ => true
  | verbatim text | inherit (some text) => text.toList.contains '\n'
  | _ => false

theorem isInline_inheritText (scope : Option String) :
    (inheritText scope).contains '\n' = (inherit scope).breaksLine := by
  cases scope with
  | none => rfl
  | some s => simp [inheritText, breaksLine]

/-- An expression is on one line exactly if it has no line end of its own and its parts are on one
line each. -/
theorem isInline_document_iff {e : Expr} (hw : e.WellFormed) :
    e.document.isInline = true ↔
      e.breaksLine = false ∧ ∀ part ∈ e.parts, part.document.isInline = true := by
  cases e with
  | null => decide
  | bool b => cases b <;> decide
  | int i => simp [document, breaksLine, parts, (noLineEnd_integerLiteral i).not_mem]
  | float x => simp [document, breaksLine, parts, (noLineEnd_floatLiteral x).not_mem]
  | string s => simp [document, breaksLine, parts, (noLineEnd_stringLiteral s).not_mem]
  | uri u => simp [document, breaksLine, parts, (noLineEnd_uriLiteral u).not_mem]
  | path p => simp [document, breaksLine, parts, (noLineEnd_path p).not_mem]
  | verbatim text => simp [document, breaksLine, parts]
  | inherit scope => simp [document, parts, ← isInline_inheritText]
  | attrs b =>
    cases b <;> simp [document, breaksLine, parts, isInline_setDocument, bindingsDocument]
  | recAttrs b =>
    cases b <;> simp [document, breaksLine, parts, isInline_setDocument, bindingsDocument]
  | list items =>
    simp [document, breaksLine, parts, isInline_listDocument, all_isInline_elementDocuments]
  | update l r => simp [document, breaksLine, parts, isInline_encloseDocument]
  | apply f a => simp [document, breaksLine, parts, isInline_encloseDocument]
  | letIn b body => simp [document, breaksLine]
  | lambda params body =>
    cases params with
    | name x =>
      have hx := noLineEnd_of_isBareName ((checkArgumentName_eq_ok_iff x).mp hw.1)
      simp [document, breaksLine, parts, Params.defaults, hx.not_mem]
    | formals items ellipsis => simp [document, breaksLine]
  | ifThenElse c y n => simp [document, breaksLine, parts, isInline_encloseDocument]
  | withScope s body => simp [document, breaksLine]
  | assertThen c body => simp [document, breaksLine]
  | importOf p => simp [document, breaksLine, parts, isInline_encloseDocument]
  | select s p fallback =>
    have hpath := (noLineEnd_attributePath p.toList).not_mem
    cases fallback with
    | none => simp [document, breaksLine, parts, isInline_encloseDocument, hpath]
    | some d => simp [document, breaksLine, parts, isInline_encloseDocument, hpath]

/-- Whether anything in an expression, the expression itself included, has a line end of its own. -/
def IsMultiline (e : Expr) : Prop :=
  ∃ part, e.Contains part ∧ part.breaksLine = true

theorem isMultiline_iff (e : Expr) :
    e.IsMultiline ↔ e.breaksLine = true ∨ ∃ part ∈ e.parts, part.IsMultiline := by
  constructor
  · rintro ⟨part, hpart, hbreaks⟩
    rcases (contains_iff e part).mp hpart with rfl | ⟨inner, hinner, hpart⟩
    · exact .inl hbreaks
    · exact .inr ⟨inner, hinner, part, hpart, hbreaks⟩
  · rintro (hbreaks | ⟨inner, hinner, part, hpart, hbreaks⟩)
    · exact ⟨e, .self e, hbreaks⟩
    · exact ⟨part, .inside hinner hpart, hbreaks⟩

theorem isInline_document_eq_false_iff (e : Expr) (hw : e.WellFormed) :
    e.document.isInline = false ↔ e.IsMultiline := by
  induction e using induction_parts with
  | step e ih =>
    have hparts : (∀ part ∈ e.parts, part.document.isInline = true) ↔
        ∀ part ∈ e.parts, ¬part.IsMultiline := by
      refine forall₂_congr fun part hpart => ?_
      rw [← ih part hpart (wellFormed_of_mem_parts hw hpart), Bool.not_eq_false]
    rw [← Bool.not_eq_true, isInline_document_iff hw, hparts, isMultiline_iff, not_and_or]
    simp

theorem line_end_mem_print_iff {e : Expr} (hw : e.WellFormed) (layout : Layout) (level : Nat) :
    '\n' ∈ e.print layout level ↔ e.IsMultiline := by
  rw [← isInline_document_eq_false_iff e hw, ← text_document, ← List.contains_iff_mem,
    Document.contains_text, Bool.not_eq_true']

theorem line_end_mem_enclose (loosest : Precedence) (e : Expr) (text : List Char) :
    '\n' ∈ enclose loosest e text ↔ '\n' ∈ text := by
  unfold enclose
  split <;> simp

theorem all_printElements_iff {items : List Expr} (hw : ∀ e ∈ items, e.WellFormed)
    (layout : Layout) (level : Nat) :
    ((printElements layout level items).all fun text => !text.contains '\n') = true ↔
      ∀ e ∈ items, ¬e.IsMultiline := by
  induction items with
  | nil => simp [printElements]
  | cons e items ih =>
    obtain ⟨he, hitems⟩ := List.forall_mem_cons.mp hw
    rw [printElements, List.all_cons, Bool.and_eq_true, ih hitems, List.forall_mem_cons]
    simp [line_end_mem_enclose, line_end_mem_print_iff he]

/-- The text of a list with its elements on the line of its brackets. -/
def inlineListText (elements : List (List Char)) : List Char :=
  ['[', ' '] ++ [' '].intercalate elements ++ [' ', ']']

/-- A list of several lines goes on below its opening bracket. -/
theorem listText_eq_inline_iff {elements : List (List Char)} (hne : elements ≠ [])
    (layout : Layout) (level : Nat) :
    listText layout level elements = inlineListText elements ↔
      (elements.all fun text => !text.contains '\n') = true := by
  have hempty : elements.isEmpty = false := by simpa using hne
  constructor
  · intro h
    by_contra hall
    rw [listText, if_neg (by simp [hempty]), if_neg hall, inlineListText] at h
    cases hnewline : layout.newline <;> simp [hnewline, Newline.text] at h
  · intro hall
    rw [listText, if_neg (by simp [hempty]), if_pos hall, inlineListText]

/-- The text of a well-formed expression has a line end, at any level and in any layout, exactly if
there is in it a set with bindings, a `let`, a function with named arguments, a `with`, an `assert`,
or a text printed as it was given that has one itself. So a list stands on one line exactly if none
of its elements is such an expression or has one in it. -/
theorem line_end_mem_source_iff (level : Nat) (layout : Layout) :
    (∀ e : Expr, e.WellFormed → ('\n' ∈ (e.source level layout).toList ↔ e.IsMultiline)) ∧
      ∀ items, (list items).WellFormed →
        ('\n' ∉ ((list items).source level layout).toList ↔ ∀ item ∈ items, ¬item.IsMultiline) ∧
        (items ≠ [] → (((list items).source level layout).toList =
            inlineListText (printElements layout (level + 1) items) ↔
          ∀ item ∈ items, ¬item.IsMultiline)) := by
  have hsource : ∀ e : Expr, (e.source level layout).toList = e.print layout level :=
    fun _ => String.toList_ofList
  refine ⟨fun e hw => by rw [hsource, line_end_mem_print_iff hw], fun items hw => ⟨?_, ?_⟩⟩
  · rw [hsource, line_end_mem_print_iff hw]
    simp [isMultiline_iff (list items), breaksLine, parts]
  · intro hne
    have hitems := (wellFormedElements_iff items).mp hw
    have helements : printElements layout (level + 1) items ≠ [] := by
      cases items with
      | nil => exact absurd rfl hne
      | cons e items => simp [printElements]
    rw [hsource, print, listText_eq_inline_iff helements, all_printElements_iff hitems]

/-- Line ends in a string and in the name of an attribute are escaped, so the list with them is on
one line and nothing in it has a line end. The function in the other one has its body on a line of
its own. -/
theorem line_end_mem_source_iff_list :
    (∀ item ∈ [string "a\nb", select (verbatim "x") ⟨"c\n", []⟩ (some (attrs []))],
        ¬item.IsMultiline) ∧
      '\n' ∈ ((list [apply (verbatim "f") (lambda (.formals [] true) null)]).source 0 {}).toList := by
  have hflat : (list [string "a\nb",
      select (verbatim "x") ⟨"c\n", []⟩ (some (attrs []))]).WellFormed := by
    simp [WellFormed, WellFormedElements, WellFormedBindings]
  have hcall : (list [apply (verbatim "f") (lambda (.formals [] true) null)]).WellFormed := by
    simp [WellFormed, WellFormedElements, WellFormedFormals, checkFormals]
  constructor
  · exact ((line_end_mem_source_iff 1 {}).2 _ hflat).1.mp (by decide)
  · refine ((line_end_mem_source_iff 0 {}).1 _ hcall).mpr ⟨lambda (.formals [] true) null, ?_, rfl⟩
    exact .inside List.mem_cons_self (.inside (by simp [parts]) (.self _))

end Expr

end NixSource
