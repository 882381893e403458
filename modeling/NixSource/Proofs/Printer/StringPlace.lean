import NixSource.Expr.Printer

/-! A string literal anywhere in a tree leaves the rest of the printed text as it is, whatever the
string. Places in a tree are lists of frames, the innermost first. -/

namespace NixSource

/-- An expression with one part left out, directly below it. -/
inductive Frame where
  | attrsBinding (before : List (String × Expr)) (name : String) (after : List (String × Expr))
  | recAttrsBinding (before : List (String × Expr)) (name : String) (after : List (String × Expr))
  | listElement (before after : List Expr)
  | updateLeft (right : Expr)
  | updateRight (left : Expr)
  | applyFunction (argument : Expr)
  | applyArgument (function : Expr)
  | letBinding (before : List (String × Expr)) (name : String) (after : List (String × Expr))
    (body : Expr)
  | letBody (bindings : List (String × Expr))
  | lambdaDefault (before : List (Formal Expr)) (name : String) (after : List (Formal Expr))
    (ellipsis : Bool) (body : Expr)
  | lambdaBody (params : Params Expr)
  | ifCondition (yes no : Expr)
  | ifYes (condition no : Expr)
  | ifNo (condition yes : Expr)
  | withScope (body : Expr)
  | withBody (scope : Expr)
  | assertCondition (body : Expr)
  | assertBody (condition : Expr)
  | importPath
  | selectSet (path : AttributePath) (fallback : Option Expr)
  | selectFallback (set : Expr) (path : AttributePath)

def Frame.plug : Frame → Expr → Expr
  | attrsBinding before name after, e => .attrs (before ++ (name, e) :: after)
  | recAttrsBinding before name after, e => .recAttrs (before ++ (name, e) :: after)
  | listElement before after, e => .list (before ++ e :: after)
  | updateLeft right, e => .update e right
  | updateRight left, e => .update left e
  | applyFunction argument, e => .apply e argument
  | applyArgument function, e => .apply function e
  | letBinding before name after body, e => .letIn (before ++ (name, e) :: after) body
  | letBody bindings, e => .letIn bindings e
  | lambdaDefault before name after ellipsis body, e =>
    .lambda (.formals (before ++ ⟨name, some e⟩ :: after) ellipsis) body
  | lambdaBody params, e => .lambda params e
  | ifCondition yes no, e => .ifThenElse e yes no
  | ifYes condition no, e => .ifThenElse condition e no
  | ifNo condition yes, e => .ifThenElse condition yes e
  | withScope body, e => .withScope e body
  | withBody scope, e => .withScope scope e
  | assertCondition body, e => .assertThen e body
  | assertBody condition, e => .assertThen condition e
  | importPath, e => .importOf e
  | selectSet path fallback, e => .select e path fallback
  | selectFallback set path, e => .select set path (some e)

/-- A place in a tree: the frames around it, the innermost first. -/
abbrev Place := List Frame

def Place.fill (place : Place) (e : Expr) : Expr :=
  place.foldl (fun e frame => frame.plug e) e

/-- A text that depends on a string only in the literal that stands for it. -/
def OnlyLiteral (text : String → List Char) : Prop :=
  ∃ before after, ∀ s, text s = before ++ stringLiteral s ++ after

namespace OnlyLiteral

variable {text : String → List Char}

theorem append_left (h : OnlyLiteral text) (a : List Char) : OnlyLiteral fun s => a ++ text s := by
  obtain ⟨before, after, h⟩ := h
  exact ⟨a ++ before, after, fun s => by simp [h]⟩

theorem append_right (h : OnlyLiteral text) (b : List Char) : OnlyLiteral fun s => text s ++ b := by
  obtain ⟨before, after, h⟩ := h
  exact ⟨before, after ++ b, fun s => by simp [h]⟩

theorem ne_nil (h : OnlyLiteral text) (s : String) : text s ≠ [] := by
  obtain ⟨before, after, h⟩ := h
  simp [h, stringLiteral]

/-- A literal is on one line, so the string has no part in whether there is a line end. -/
theorem contains_line_end (h : OnlyLiteral text) :
    ∃ b, ∀ s, (text s).contains '\n' = b := by
  obtain ⟨before, after, h⟩ := h
  refine ⟨before.contains '\n' || after.contains '\n', fun s => ?_⟩
  have hs := (line_end_not_mem_escape s.toList).1
  simp [h, stringLiteral, hs]

theorem intercalate (h : OnlyLiteral text) (sep : List Char) (before after : List (List Char)) :
    OnlyLiteral fun s => sep.intercalate (before ++ text s :: after) := by
  induction before with
  | nil =>
    cases after with
    | nil => simpa using h
    | cons b after => simpa using h.append_right (sep ++ sep.intercalate (b :: after))
  | cons a before ih =>
    have := ih.append_left (a ++ sep)
    cases before <;> simpa using this

end OnlyLiteral

theorem onlyLiteral_setText {text : String → List Char} (h : OnlyLiteral text) (layout : Layout)
    (level : Nat) : OnlyLiteral fun s => setText layout level (text s) := by
  have hne : ∀ s, (text s).isEmpty = false := fun s => by simp [h.ne_nil s]
  have := ((h.append_left ('{' :: layout.newline.text)).append_right
    (layout.indent level)).append_right ['}']
  simpa [setText, hne] using this

/-- Whether a list stands on one line does not depend on the string, and either way the other
elements are printed the same. -/
theorem onlyLiteral_listText {text : String → List Char} (h : OnlyLiteral text) (layout : Layout)
    (level : Nat) (before after : List (List Char)) :
    OnlyLiteral fun s => listText layout level (before ++ text s :: after) := by
  obtain ⟨b, hb⟩ := h.contains_line_end
  have hall : ∀ s, ((before ++ text s :: after).all fun e => !e.contains '\n') =
      ((before.all fun e => !e.contains '\n') && !b && after.all fun e => !e.contains '\n') := by
    intro s
    simp [← hb s, Bool.and_assoc]
  have hne : ∀ s, (before ++ text s :: after).isEmpty = false := fun s => by simp
  simp only [listText, hall, hne, Bool.false_eq_true, if_false]
  split
  · exact ((h.intercalate [' '] before after).append_left ['[', ' ']).append_right [' ', ']']
  · have := (h.append_left (layout.indent (level + 1))).append_right layout.newline.text
    have := (this.append_left ('[' :: layout.newline.text ++ before.flatMap fun e =>
      layout.indent (level + 1) ++ e ++ layout.newline.text)).append_right
        ((after.flatMap fun e => layout.indent (level + 1) ++ e ++ layout.newline.text) ++
          layout.indent level ++ [']'])
    simpa using this

theorem onlyLiteral_formalsText {text : String → List Char} (h : OnlyLiteral text)
    (before after : List (List Char)) (ellipsis : Bool) :
    OnlyLiteral fun s => formalsText (before ++ text s :: after) ellipsis := by
  cases ellipsis with
  | false =>
    have := ((h.intercalate [',', ' '] before after).append_left ['{', ' ']).append_right
      [' ', '}', ':']
    simpa [formalsText] using this
  | true =>
    have := ((h.intercalate [',', ' '] before (after ++ [['.', '.', '.']])).append_left
      ['{', ' ']).append_right [' ', '}', ':']
    simpa [formalsText] using this

namespace Expr

/-- Expressions, one for each string, that are all printed alike but for the literal of the string.
They hold together equally tightly and none of them takes its binding from a scope, so what is
around them is printed alike too. -/
structure Inert (family : String → Expr) : Prop where
  print : ∀ layout level, OnlyLiteral fun s => (family s).print layout level
  precedence : ∃ p, ∀ s, (family s).precedence = p
  own : ∀ s scope, family s ≠ .inherit scope

variable {family : String → Expr}

theorem inert_string : Inert .string where
  print _ _ := ⟨[], [], fun s => by simp [Expr.print]⟩
  precedence := ⟨.atom, fun _ => rfl⟩
  own _ _ := nofun

theorem Inert.enclose (h : Inert family) (loosest : Precedence) (layout : Layout) (level : Nat) :
    OnlyLiteral fun s => enclose loosest (family s) ((family s).print layout level) := by
  obtain ⟨p, hp⟩ := h.precedence
  simp only [Expr.enclose, hp]
  split
  · exact ((h.print layout level).append_right [')']).append_left ['(']
  · exact h.print layout level

theorem printBindings_append (layout : Layout) (level : Nat) (a b : List (String × Expr)) :
    printBindings layout level (a ++ b) =
      printBindings layout level a ++ printBindings layout level b := by
  induction a with
  | nil => rfl
  | cons p a ih => simp [printBindings, ih]

theorem printElements_append (layout : Layout) (level : Nat) (a b : List Expr) :
    printElements layout level (a ++ b) =
      printElements layout level a ++ printElements layout level b := by
  induction a with
  | nil => rfl
  | cons e a ih => simp [printElements, ih]

theorem printFormals_append (layout : Layout) (level : Nat) (a b : List (Formal Expr)) :
    printFormals layout level (a ++ b) =
      printFormals layout level a ++ printFormals layout level b := by
  induction a with
  | nil => rfl
  | cons f a ih =>
    obtain ⟨name, d | d⟩ := f <;> simp [printFormals, ih]

theorem Inert.bindings (h : Inert family) (layout : Layout) (level : Nat)
    (before : List (String × Expr)) (name : String) (after : List (String × Expr)) :
    OnlyLiteral fun s => printBindings layout level (before ++ (name, family s) :: after) := by
  have hb : ∀ s text, bindingText name (family s) text =
      attributeName name ++ [' ', '=', ' '] ++ text := by
    intro s text
    unfold bindingText
    split
    · next he => exact absurd he (h.own s _)
    · rfl
  have := (h.print layout level).append_left (printBindings layout level before ++
    layout.indent level ++ attributeName name ++ [' ', '=', ' '])
  have := this.append_right (';' :: layout.newline.text ++ printBindings layout level after)
  simpa [printBindings_append, printBindings, hb] using this

end Expr

theorem Frame.plug_ne_inherit (frame : Frame) (e : Expr) (scope : Option String) :
    frame.plug e ≠ .inherit scope := by
  cases frame <;> simp [plug]

open NixSource.Expr in
/-- What is around a part of a tree stays as it is when only the string in the part changes. -/
theorem Frame.inert_plug {family : String → Expr} (frame : Frame) (h : Inert family) :
    Inert fun s => frame.plug (family s) := by
  cases frame with
  | attrsBinding before name after =>
    refine ⟨fun layout level => ?_, ⟨.atom, fun _ => rfl⟩, fun _ => plug_ne_inherit _ _⟩
    exact onlyLiteral_setText (h.bindings layout (level + 1) before name after) layout level
  | recAttrsBinding before name after =>
    refine ⟨fun layout level => ?_, ⟨.atom, fun _ => rfl⟩, fun _ => plug_ne_inherit _ _⟩
    exact (onlyLiteral_setText (h.bindings layout (level + 1) before name after) layout
      level).append_left _
  | listElement before after =>
    refine ⟨fun layout level => ?_, ⟨.atom, fun _ => rfl⟩, fun _ => plug_ne_inherit _ _⟩
    have := onlyLiteral_listText (h.enclose .atom layout (level + 1)) layout level
      (printElements layout (level + 1) before) (printElements layout (level + 1) after)
    simpa [plug, Expr.print, printElements_append, printElements] using this
  | updateLeft right =>
    refine ⟨fun layout level => ?_, ⟨.operator, fun _ => rfl⟩, fun _ => plug_ne_inherit _ _⟩
    exact ((h.enclose .operator layout level).append_right _).append_right _
  | updateRight left =>
    refine ⟨fun layout level => ?_, ⟨.operator, fun _ => rfl⟩, fun _ => plug_ne_inherit _ _⟩
    exact (h.enclose .operator layout level).append_left _
  | applyFunction argument =>
    refine ⟨fun layout level => ?_, ⟨.application, fun _ => rfl⟩, fun _ => plug_ne_inherit _ _⟩
    exact (h.enclose .application layout level).append_right _
  | applyArgument function =>
    refine ⟨fun layout level => ?_, ⟨.application, fun _ => rfl⟩, fun _ => plug_ne_inherit _ _⟩
    exact ((h.enclose .atom layout level).append_left [' ']).append_left _
  | letBinding before name after body =>
    refine ⟨fun layout level => ?_, ⟨.lowest, fun _ => rfl⟩, fun _ => plug_ne_inherit _ _⟩
    have := (h.bindings layout (level + 1) before name after).append_left
      (['l', 'e', 't'] ++ layout.newline.text)
    have := this.append_right (layout.indent level ++ ['i', 'n'] ++ layout.newline.text ++
      layout.indent level ++ body.print layout level)
    simpa [plug, Expr.print] using this
  | letBody bindings =>
    refine ⟨fun layout level => ?_, ⟨.lowest, fun _ => rfl⟩, fun _ => plug_ne_inherit _ _⟩
    exact (h.print layout level).append_left _
  | lambdaDefault before name after ellipsis body =>
    refine ⟨fun layout level => ?_, ⟨.lowest, fun _ => rfl⟩, fun _ => plug_ne_inherit _ _⟩
    have := onlyLiteral_formalsText
      ((h.enclose .operator layout level).append_left (name.toList ++ [' ', '?', ' ']))
      (printFormals layout level before) (printFormals layout level after) ellipsis
    have := this.append_right (paragraph layout level ++ body.print layout level)
    simpa [plug, Expr.print, printFormals_append, printFormals] using this
  | lambdaBody params =>
    refine ⟨fun layout level => ?_, ⟨.lowest, fun _ => rfl⟩, fun _ => plug_ne_inherit _ _⟩
    cases params <;> exact (h.print layout level).append_left _
  | ifCondition yes no =>
    refine ⟨fun layout level => ?_, ⟨.lowest, fun _ => rfl⟩, fun _ => plug_ne_inherit _ _⟩
    have := (h.enclose .operator layout level).append_left ['i', 'f', ' ']
    exact (((this.append_right _).append_right _).append_right _).append_right _
  | ifYes condition no =>
    refine ⟨fun layout level => ?_, ⟨.lowest, fun _ => rfl⟩, fun _ => plug_ne_inherit _ _⟩
    exact (((h.enclose .operator layout level).append_left _).append_right _).append_right _
  | ifNo condition yes =>
    refine ⟨fun layout level => ?_, ⟨.lowest, fun _ => rfl⟩, fun _ => plug_ne_inherit _ _⟩
    exact (h.print layout level).append_left _
  | withScope body =>
    refine ⟨fun layout level => ?_, ⟨.lowest, fun _ => rfl⟩, fun _ => plug_ne_inherit _ _⟩
    have := (h.enclose .operator layout level).append_left ['w', 'i', 't', 'h', ' ']
    exact (this.append_right _).append_right _
  | withBody scope =>
    refine ⟨fun layout level => ?_, ⟨.lowest, fun _ => rfl⟩, fun _ => plug_ne_inherit _ _⟩
    have := (h.print layout level).append_left (['w', 'i', 't', 'h', ' '] ++
      enclose .operator scope (scope.print layout level) ++ ';' :: paragraph layout level)
    simpa [plug, Expr.print] using this
  | assertCondition body =>
    refine ⟨fun layout level => ?_, ⟨.lowest, fun _ => rfl⟩, fun _ => plug_ne_inherit _ _⟩
    have := (h.enclose .operator layout level).append_left ['a', 's', 's', 'e', 'r', 't', ' ']
    exact (this.append_right _).append_right _
  | assertBody condition =>
    refine ⟨fun layout level => ?_, ⟨.lowest, fun _ => rfl⟩, fun _ => plug_ne_inherit _ _⟩
    have := (h.print layout level).append_left (['a', 's', 's', 'e', 'r', 't', ' '] ++
      enclose .operator condition (condition.print layout level) ++ ';' :: paragraph layout level)
    simpa [plug, Expr.print] using this
  | importPath =>
    refine ⟨fun layout level => ?_, ⟨.application, fun _ => rfl⟩, fun _ => plug_ne_inherit _ _⟩
    exact (h.enclose .atom layout level).append_left _
  | selectSet path fallback =>
    cases fallback with
    | none =>
      refine ⟨fun layout level => ?_, ⟨.atom, fun _ => rfl⟩, fun _ => plug_ne_inherit _ _⟩
      exact (h.enclose .atom layout level).append_right _
    | some d =>
      refine ⟨fun layout level => ?_, ⟨.fallback, fun _ => rfl⟩, fun _ => plug_ne_inherit _ _⟩
      exact (((h.enclose .atom layout level).append_right _).append_right _).append_right _
  | selectFallback set path =>
    refine ⟨fun layout level => ?_, ⟨.fallback, fun _ => rfl⟩, fun _ => plug_ne_inherit _ _⟩
    exact (h.enclose .atom layout level).append_left _

open NixSource.Expr in
theorem Place.inert_fill (place : Place) {family : String → Expr} (h : Inert family) :
    Inert fun s => place.fill (family s) := by
  induction place generalizing family with
  | nil => exact h
  | cons frame place ih => exact ih (frame.inert_plug h)

/-- Wherever a string stands in a tree, at every level and in every layout the text of the tree is
the literal of the string between two texts that do not depend on it. -/
theorem print_fill_string (place : Place) (layout : Layout) (level : Nat) :
    ∃ before after, ∀ s,
      (place.fill (.string s)).print layout level = before ++ stringLiteral s ++ after :=
  (place.inert_fill Expr.inert_string).print layout level

end NixSource
