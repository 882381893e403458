import NixSource.Expr.Basic
import NixSource.Layout

/-! The source text of an expression. Operands that bind looser than their place allows are
parenthesised, attributes stand one to a line, and a list stands on one line when all its elements
do. A level is one more in each set, list or group of bindings, and is taken to stay below the
overflow of a machine word. -/

namespace NixSource

/-- How tightly an expression holds together, tightest first: literals, sets, lists and selections;
selections with a fallback, which would take a following attribute for their own; applications;
merges; and what extends as far to the right as it can. -/
inductive Precedence where
  | atom
  | fallback
  | application
  | operator
  | lowest
deriving DecidableEq

def Precedence.rank : Precedence → Nat
  | atom => 0
  | fallback => 1
  | application => 2
  | operator => 3
  | lowest => 4

/-- An integer. The least one is written as a difference, because its absolute value is no literal;
other negative ones are parenthesised, to stay one element of a list. -/
def integerLiteral (i : Int64) : List Char :=
  if i = Int64.minValue then
    '(' :: (integerText (i.toInt + 1) ++ [' ', '-', ' ', '1', ')'])
  else if i < 0 then '(' :: (integerText i.toInt ++ [')'])
  else integerText i.toInt

/-- What an inherited binding starts with. The scope is written as it is given. -/
def inheritText : Option String → List Char
  | none => ['i', 'n', 'h', 'e', 'r', 'i', 't']
  | some scope =>
    ['i', 'n', 'h', 'e', 'r', 'i', 't', ' ', '('] ++ scope.toList ++ [')']

/-- The header of a function with named arguments, from the texts of the arguments. -/
def formalsText (items : List (List Char)) (ellipsis : Bool) : List Char :=
  let items := if ellipsis then items ++ [['.', '.', '.']] else items
  if items.isEmpty then ['{', '}', ':']
  else ['{', ' '] ++ [',', ' '].intercalate items ++ [' ', '}', ':']

/-- A list from the texts of its elements: on one line if each of them is, else an element to a
line. -/
def listText (layout : Layout) (level : Nat) (elements : List (List Char)) : List Char :=
  if elements.isEmpty then ['[', ']']
  else if elements.all fun e => !e.contains '\n' then
    ['[', ' '] ++ [' '].intercalate elements ++ [' ', ']']
  else
    '[' :: layout.newline.text ++
      elements.flatMap (fun e => layout.indent (level + 1) ++ e ++ layout.newline.text) ++
      layout.indent level ++ [']']

/-- A set from the text of its bindings, one level deeper. -/
def setText (layout : Layout) (level : Nat) (bindings : List Char) : List Char :=
  if bindings.isEmpty then ['{', '}']
  else '{' :: layout.newline.text ++ bindings ++ layout.indent level ++ ['}']

/-- A new line at `level`, after a blank one. -/
def paragraph (layout : Layout) (level : Nat) : List Char :=
  layout.newline.text ++ layout.newline.text ++ layout.indent level

namespace Expr

/-- How tightly an expression holds together when it is printed. -/
def precedence : Expr → Precedence
  | null | bool _ | int _ | float _ | string _ | uri _ | path _ | verbatim _ | inherit _ | attrs _
  | recAttrs _ | list _ | select _ _ none => .atom
  | select _ _ (some _) => .fallback
  | apply _ _ | importOf _ => .application
  | update _ _ => .operator
  | letIn _ _ | lambda _ _ | ifThenElse _ _ _ | withScope _ _ | assertThen _ _ => .lowest

/-- The text of `e` in a place for expressions that bind as tightly as `loosest` or tighter. -/
def enclose (loosest : Precedence) (e : Expr) (text : List Char) : List Char :=
  if loosest.rank < e.precedence.rank then '(' :: (text ++ [')']) else text

/-- The binding of `name` to an expression with the given text, without the final semicolon. -/
def bindingText (name : String) (value : Expr) (text : List Char) : List Char :=
  match value with
  | inherit _ => text ++ ' ' :: attributeName name
  | _ => attributeName name ++ [' ', '=', ' '] ++ text

mutual

/-- The source text of an expression that starts on a line at `level`. The first line is not
indented; lines of nested bodies are one level deeper, and what closes them is back at `level`. -/
def print (layout : Layout) (level : Nat) : Expr → List Char
  | null => ['n', 'u', 'l', 'l']
  | bool true => ['t', 'r', 'u', 'e']
  | bool false => ['f', 'a', 'l', 's', 'e']
  | int i => integerLiteral i
  | float x => x.literal
  | string s => stringLiteral s
  | uri u => u.literal
  | path p => p.text.toList
  | verbatim source => source.toList
  | inherit scope => inheritText scope
  | attrs b => setText layout level (printBindings layout (level + 1) b)
  | recAttrs b =>
    ['r', 'e', 'c', ' '] ++ setText layout level (printBindings layout (level + 1) b)
  | list items => listText layout level (printElements layout (level + 1) items)
  | update l r =>
    enclose .operator l (print layout level l) ++ [' ', '/', '/', ' '] ++
      enclose .operator r (print layout level r)
  | apply f a =>
    enclose .application f (print layout level f) ++ ' ' ::
      enclose .atom a (print layout level a)
  | letIn b body =>
    ['l', 'e', 't'] ++ layout.newline.text ++ printBindings layout (level + 1) b ++
      layout.indent level ++ ['i', 'n'] ++ layout.newline.text ++ layout.indent level ++
      print layout level body
  | lambda (.name x) body => x.toList ++ [':', ' '] ++ print layout level body
  | lambda (.formals items ellipsis) body =>
    formalsText (printFormals layout level items) ellipsis ++ paragraph layout level ++
      print layout level body
  | ifThenElse c y n =>
    ['i', 'f', ' '] ++ enclose .operator c (print layout level c) ++
      [' ', 't', 'h', 'e', 'n', ' '] ++ enclose .operator y (print layout level y) ++
      [' ', 'e', 'l', 's', 'e', ' '] ++ print layout level n
  | withScope s body =>
    ['w', 'i', 't', 'h', ' '] ++ enclose .operator s (print layout level s) ++ ';' ::
      paragraph layout level ++ print layout level body
  | assertThen c body =>
    ['a', 's', 's', 'e', 'r', 't', ' '] ++ enclose .operator c (print layout level c) ++ ';' ::
      paragraph layout level ++ print layout level body
  | importOf p =>
    ['i', 'm', 'p', 'o', 'r', 't', ' '] ++ enclose .atom p (print layout level p)
  | select s p none =>
    enclose .atom s (print layout level s) ++ p.toList.flatMap fun n => '.' :: attributeName n
  | select s p (some d) =>
    enclose .atom s (print layout level s) ++ (p.toList.flatMap fun n => '.' :: attributeName n) ++
      [' ', 'o', 'r', ' '] ++ enclose .atom d (print layout level d)

/-- Each binding on a line of its own at `level`, ended by a semicolon. -/
def printBindings (layout : Layout) (level : Nat) : List (String × Expr) → List Char
  | [] => []
  | (name, value) :: rest =>
    layout.indent level ++ bindingText name value (print layout level value) ++
      ';' :: layout.newline.text ++ printBindings layout level rest

def printElements (layout : Layout) (level : Nat) : List Expr → List (List Char)
  | [] => []
  | e :: rest => enclose .atom e (print layout level e) :: printElements layout level rest

def printFormals (layout : Layout) (level : Nat) : List (Formal Expr) → List (List Char)
  | [] => []
  | ⟨name, none⟩ :: rest => name.toList :: printFormals layout level rest
  | ⟨name, some d⟩ :: rest =>
    (name.toList ++ [' ', '?', ' '] ++ enclose .operator d (print layout level d)) ::
      printFormals layout level rest

end

/-- The source text of an expression that starts on a line at `level`. -/
def source (e : Expr) (level : Nat) (layout : Layout) : String :=
  String.ofList (e.print layout level)

def toNix (e : Expr) : String :=
  e.source 0 {}

end Expr

end NixSource
