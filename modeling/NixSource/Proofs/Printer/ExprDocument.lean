import NixSource.Proofs.Printer.Document

/-! The document of an expression: its source text before a layout is chosen. Which lists stand on one
line is settled by the document, so no layout has a part in it. -/

namespace NixSource

/-- The header of a function with named arguments, from the documents of the arguments. -/
def formalsDocument (items : List Document) (ellipsis : Bool) : Document :=
  let items := if ellipsis then items ++ [[.chars ['.', '.', '.']]] else items
  if items.isEmpty then [.chars ['{', '}', ':']]
  else .chars ['{', ' '] :: [.chars [',', ' ']].intercalate items ++ [.chars [' ', '}', ':']]

/-- A list from the documents of its elements, each one level deeper than the list. -/
def listDocument (elements : List Document) : Document :=
  if elements.isEmpty then [.chars ['[', ']']]
  else if elements.all Document.isInline then
    .chars ['[', ' '] :: [.chars [' ']].intercalate elements ++ [.chars [' ', ']']]
  else
    .chars ['['] :: elements.flatMap (fun d => .newLine 1 :: d) ++ [.newLine 0, .chars [']']]

/-- A set from the document of its bindings, each on a new line. -/
def setDocument (bindings : Document) : Document :=
  if bindings.isEmpty then [.chars ['{', '}']]
  else .chars ['{'] :: bindings ++ [.newLine 0, .chars ['}']]

namespace Expr

/-- The document of `e` in a place for expressions that bind as tightly as `loosest` or tighter. -/
def encloseDocument (loosest : Precedence) (e : Expr) (d : Document) : Document :=
  if loosest.rank < e.precedence.rank then .chars ['('] :: d ++ [.chars [')']] else d

def bindingDocument (name : String) (value : Expr) (d : Document) : Document :=
  match value with
  | inherit _ => d ++ [.chars (' ' :: attributeName name)]
  | _ => .chars (attributeName name ++ [' ', '=', ' ']) :: d

mutual

/-- The source text of an expression, with its layout open. -/
def document : Expr → Document
  | null => [.chars ['n', 'u', 'l', 'l']]
  | bool true => [.chars ['t', 'r', 'u', 'e']]
  | bool false => [.chars ['f', 'a', 'l', 's', 'e']]
  | int i => [.chars (integerLiteral i)]
  | float x => [.chars x.literal]
  | string s => [.chars (stringLiteral s)]
  | uri u => [.chars u.literal]
  | path p => [.chars p.text.toList]
  | verbatim source => [.chars source.toList]
  | inherit scope => [.chars (inheritText scope)]
  | attrs b => setDocument (bindingsDocument b)
  | recAttrs b => .chars ['r', 'e', 'c', ' '] :: setDocument (bindingsDocument b)
  | list items => listDocument (elementDocuments items)
  | update l r =>
    encloseDocument .operator l l.document ++ .chars [' ', '/', '/', ' '] ::
      encloseDocument .operator r r.document
  | apply f a =>
    encloseDocument .application f f.document ++ .chars [' '] ::
      encloseDocument .atom a a.document
  | letIn b body =>
    .chars ['l', 'e', 't'] :: bindingsDocument b ++
      .newLine 0 :: .chars ['i', 'n'] :: .newLine 0 :: body.document
  | lambda (.name x) body => .chars (x.toList ++ [':', ' ']) :: body.document
  | lambda (.formals items ellipsis) body =>
    formalsDocument (formalDocuments items) ellipsis ++ .paragraph 0 :: body.document
  | ifThenElse c y n =>
    .chars ['i', 'f', ' '] :: encloseDocument .operator c c.document ++
      .chars [' ', 't', 'h', 'e', 'n', ' '] :: encloseDocument .operator y y.document ++
      .chars [' ', 'e', 'l', 's', 'e', ' '] :: n.document
  | withScope s body =>
    .chars ['w', 'i', 't', 'h', ' '] :: encloseDocument .operator s s.document ++
      .chars [';'] :: .paragraph 0 :: body.document
  | assertThen c body =>
    .chars ['a', 's', 's', 'e', 'r', 't', ' '] :: encloseDocument .operator c c.document ++
      .chars [';'] :: .paragraph 0 :: body.document
  | importOf p =>
    .chars ['i', 'm', 'p', 'o', 'r', 't', ' '] :: encloseDocument .atom p p.document
  | select s p none =>
    encloseDocument .atom s s.document ++
      [.chars (p.toList.flatMap fun n => '.' :: attributeName n)]
  | select s p (some d) =>
    encloseDocument .atom s s.document ++
      .chars (p.toList.flatMap fun n => '.' :: attributeName n) ::
      .chars [' ', 'o', 'r', ' '] :: encloseDocument .atom d d.document

/-- Each binding after a new line, one level deeper than what is around the bindings. -/
def bindingsDocument : List (String × Expr) → Document
  | [] => []
  | (name, value) :: rest =>
    .newLine 1 :: (bindingDocument name value value.document).nest ++
      .chars [';'] :: bindingsDocument rest

def elementDocuments : List Expr → List Document
  | [] => []
  | e :: rest => (encloseDocument .atom e e.document).nest :: elementDocuments rest

def formalDocuments : List (Formal Expr) → List Document
  | [] => []
  | ⟨name, none⟩ :: rest => [.chars name.toList] :: formalDocuments rest
  | ⟨name, some d⟩ :: rest =>
    (.chars (name.toList ++ [' ', '?', ' ']) :: encloseDocument .operator d d.document) ::
      formalDocuments rest

end

end Expr

section

variable (layout : Layout) (level : Nat)

theorem text_formalsDocument (items : List Document) (ellipsis : Bool) :
    (formalsDocument items ellipsis).text layout level =
      formalsText (items.map (Document.text layout level)) ellipsis := by
  cases ellipsis <;> cases items <;>
    simp [formalsDocument, formalsText, Document.text_intercalate, Fragment.text]

/-- A line end may as well be counted to the line before it as to the line after it. -/
theorem text_newLines (ds : List Document) (rest : List Char) :
    Document.text layout level (ds.flatMap fun d => .newLine 1 :: d) ++
        (layout.newline.text ++ rest) =
      layout.newline.text ++ ((ds.map (Document.text layout level)).flatMap (fun t =>
        layout.indent (level + 1) ++ (t ++ layout.newline.text)) ++ rest) := by
  induction ds with
  | nil => simp
  | cons d ds ih => simp [Fragment.text, ih]

theorem text_listDocument (elements : List Document) :
    (listDocument elements).text layout level =
      listText layout level (elements.map (Document.text layout level)) := by
  have hinline : ((elements.map (Document.text layout level)).all fun t => !t.contains '\n') =
      elements.all Document.isInline := by
    rw [List.all_map]
    congr 1
    funext d
    rw [Function.comp, Document.contains_text, Bool.not_not]
  unfold listDocument listText
  rw [hinline, List.isEmpty_map]
  split
  · simp [Fragment.text]
  · split
    · simp [Fragment.text, Document.text_intercalate]
    · simp [Fragment.text, text_newLines]

namespace Expr

theorem text_encloseDocument (loosest : Precedence) (e : Expr) (d : Document) :
    (encloseDocument loosest e d).text layout level =
      enclose loosest e (d.text layout level) := by
  unfold encloseDocument enclose
  split <;> simp [Fragment.text]

theorem text_bindingDocument (name : String) (value : Expr) (d : Document) :
    (bindingDocument name value d).text layout level =
      bindingText name value (d.text layout level) := by
  unfold bindingDocument bindingText
  split <;> simp [Fragment.text]

theorem text_setDocument {b : List (String × Expr)}
    (h : ∀ rest, (bindingsDocument b).text layout level ++ (layout.newline.text ++ rest) =
      layout.newline.text ++ (printBindings layout (level + 1) b ++ rest)) :
    (setDocument (bindingsDocument b)).text layout level =
      setText layout level (printBindings layout (level + 1) b) := by
  cases b with
  | nil => rfl
  | cons p b =>
    have hdocument : (bindingsDocument (p :: b)).isEmpty = false := by simp [bindingsDocument]
    have htext : (printBindings layout (level + 1) (p :: b)).isEmpty = false := by
      simp [printBindings]
    simp [setDocument, setText, hdocument, htext, Fragment.text, h]

mutual

/-- The text of the document of an expression is what the expression is printed as. -/
theorem text_document : (e : Expr) → ∀ level, e.document.text layout level = e.print layout level
  | null | bool true | bool false | int _ | float _ | string _ | uri _ | path _ | verbatim _
  | inherit _ => fun level => by simp [document, print, Fragment.text]
  | attrs b => fun level => by
    rw [document, print, text_setDocument layout level (text_bindingsDocument b level)]
  | recAttrs b => fun level => by
    rw [document, print, Document.text_cons,
      text_setDocument layout level (text_bindingsDocument b level)]
    rfl
  | list items => fun level => by
    rw [document, print, text_listDocument, text_elementDocuments items level]
  | update l r => fun level => by
    simp [document, print, Fragment.text, text_encloseDocument, text_document l level,
      text_document r level]
  | apply f a => fun level => by
    simp [document, print, Fragment.text, text_encloseDocument, text_document f level,
      text_document a level]
  | letIn b body => fun level => by
    simp [document, print, Fragment.text, text_bindingsDocument b level, text_document body level]
  | lambda (.name x) body => fun level => by
    simp [document, print, Fragment.text, text_document body level]
  | lambda (.formals items ellipsis) body => fun level => by
    simp [document, print, Fragment.text, text_formalsDocument, text_formalDocuments items level,
      text_document body level]
  | ifThenElse c y n => fun level => by
    simp [document, print, Fragment.text, text_encloseDocument, text_document c level,
      text_document y level, text_document n level]
  | withScope s body => fun level => by
    simp [document, print, Fragment.text, text_encloseDocument, text_document s level,
      text_document body level]
  | assertThen c body => fun level => by
    simp [document, print, Fragment.text, text_encloseDocument, text_document c level,
      text_document body level]
  | importOf p => fun level => by
    simp [document, print, Fragment.text, text_encloseDocument, text_document p level]
  | select s p none => fun level => by
    simp [document, print, Fragment.text, text_encloseDocument, text_document s level]
  | select s p (some d) => fun level => by
    simp [document, print, Fragment.text, text_encloseDocument, text_document s level,
      text_document d level]

theorem text_bindingsDocument : (b : List (String × Expr)) → ∀ level rest,
    (bindingsDocument b).text layout level ++ (layout.newline.text ++ rest) =
      layout.newline.text ++ (printBindings layout (level + 1) b ++ rest)
  | [] => fun level rest => rfl
  | (name, value) :: b => fun level rest => by
    simp [bindingsDocument, printBindings, Fragment.text, text_bindingDocument,
      text_document value (level + 1), text_bindingsDocument b level]

theorem text_elementDocuments : (items : List Expr) → ∀ level,
    (elementDocuments items).map (Document.text layout level) =
      printElements layout (level + 1) items
  | [] => fun level => rfl
  | e :: items => fun level => by
    simp [elementDocuments, printElements, text_encloseDocument, text_document e (level + 1),
      text_elementDocuments items level]

theorem text_formalDocuments : (items : List (Formal Expr)) → ∀ level,
    (formalDocuments items).map (Document.text layout level) = printFormals layout level items
  | [] => fun level => rfl
  | ⟨name, none⟩ :: items => fun level => by
    simp [formalDocuments, printFormals, Fragment.text, text_formalDocuments items level]
  | ⟨name, some d⟩ :: items => fun level => by
    simp [formalDocuments, printFormals, Fragment.text, text_encloseDocument,
      text_document d level, text_formalDocuments items level]

end

end Expr

end

end NixSource
