import NixSource.Expr.Checked
import NixSource.Expr.Printer
import NixSource.Proofs.Binary.Literal
import NixSource.Proofs.Syntax.Literal

/-! The tokens of an expression, and the expressions whose text is made of just those. -/

namespace NixSource

def integerTokens (i : Int64) : List Token :=
  if i = Int64.minValue then
    [.openParen, .minus, .integer 9223372036854775807, .minus, .integer 1, .closeParen]
  else if i < 0 then [.openParen, .minus, .integer i.toInt.natAbs, .closeParen]
  else [.integer i.toInt.natAbs]

def FiniteFloat.tokens (x : FiniteFloat) : List Token :=
  if x.value.isNegative then [.openParen, .minus, .decimal x.decimal, .closeParen]
  else [.decimal x.decimal]

def Uri.token (u : Uri) : Token :=
  if u.isBare then .uri u.text else .string u.text

/-- The tokens that an inherited binding starts with. -/
def inheritTokens : Option String → List Token
  | none => [.keyword .inheritWord]
  | some scope => [.keyword .inheritWord, .openParen, .name scope, .closeParen]

/-- The header of a function with named arguments, from the tokens of the arguments. -/
def formalsTokens (items : List (List Token)) (ellipsis : Bool) : List Token :=
  .openBrace ::
    ([.comma].intercalate (if ellipsis then items ++ [[.ellipsis]] else items) ++
      [.closeBrace, .colon])

namespace Expr

/-- The tokens of `e` in a place for expressions that bind as tightly as `loosest` or tighter. -/
def encloseTokens (loosest : Precedence) (e : Expr) (ts : List Token) : List Token :=
  if loosest.rank < e.precedence.rank then .openParen :: (ts ++ [.closeParen]) else ts

/-- The tokens of a binding without the final semicolon. -/
def bindingTokens (name : String) (value : Expr) (ts : List Token) : List Token :=
  match value with
  | inherit _ => ts ++ [nameToken name]
  | _ => nameToken name :: .equals :: ts

mutual

/-- The tokens of an expression. Parentheses stand where the text has them. -/
def tokens : Expr → List Token
  | null => [.name "null"]
  | bool true => [.name "true"]
  | bool false => [.name "false"]
  | int i => integerTokens i
  | float x => x.tokens
  | string s => [.string s]
  | uri u => [u.token]
  | path p => [.path p.text]
  | verbatim source => [.name source]
  | inherit scope => inheritTokens scope
  | attrs b => .openBrace :: (bindingsTokens b ++ [.closeBrace])
  | recAttrs b => .keyword .recWord :: .openBrace :: (bindingsTokens b ++ [.closeBrace])
  | list items => .openBracket :: ((elementsTokens items).flatten ++ [.closeBracket])
  | update l r =>
    encloseTokens .operator l l.tokens ++ .update :: encloseTokens .operator r r.tokens
  | apply f a => encloseTokens .application f f.tokens ++ encloseTokens .atom a a.tokens
  | letIn b body => .keyword .letWord :: (bindingsTokens b ++ .keyword .inWord :: body.tokens)
  | lambda (.name x) body => .name x :: .colon :: body.tokens
  | lambda (.formals items ellipsis) body =>
    formalsTokens (formalTokens items) ellipsis ++ body.tokens
  | ifThenElse c y n =>
    .keyword .ifWord :: (encloseTokens .operator c c.tokens ++
      .keyword .thenWord :: (encloseTokens .operator y y.tokens ++
        .keyword .elseWord :: n.tokens))
  | withScope s body =>
    .keyword .withWord :: (encloseTokens .operator s s.tokens ++ .semicolon :: body.tokens)
  | assertThen c body =>
    .keyword .assertWord :: (encloseTokens .operator c c.tokens ++ .semicolon :: body.tokens)
  | importOf p => .keyword .importWord :: encloseTokens .atom p p.tokens
  | select s p none => encloseTokens .atom s s.tokens ++ stepTokens p.toList
  | select s p (some d) =>
    encloseTokens .atom s s.tokens ++
      (stepTokens p.toList ++ .keyword .orWord :: encloseTokens .atom d d.tokens)

def bindingsTokens : List (String × Expr) → List Token
  | [] => []
  | (name, value) :: rest =>
    bindingTokens name value value.tokens ++ .semicolon :: bindingsTokens rest

def elementsTokens : List Expr → List (List Token)
  | [] => []
  | e :: rest => encloseTokens .atom e e.tokens :: elementsTokens rest

/-- The tokens of each named argument, with its default if it has one. -/
def formalTokens : List (Formal Expr) → List (List Token)
  | [] => []
  | ⟨name, none⟩ :: rest => [.name name] :: formalTokens rest
  | ⟨name, some d⟩ :: rest =>
    (.name name :: .question :: encloseTokens .operator d d.tokens) :: formalTokens rest

end

/-- The names that stand for values of their own. -/
def literalNames : List String :=
  ["null", "true", "false"]

/-- Whether `s` can name a variable. -/
def IsVariable (s : String) : Prop :=
  isBareName s = true ∧ s ∉ literalNames

/-- Whether the last token of a literal could go on with the point of a selection, or with a word
behind it. -/
def EndsOpen : Expr → Prop
  | int _ | float _ | uri _ | path _ => True
  | _ => False

mutual

/-- Whether an expression is made of nothing but what its tokens tell: source text that is taken as
it is only names variables, inherited bindings stand in sets only, what a selection selects from has
an end of its own, and there are URIs only if `uris` allows them, which it never does in the default
of an argument. Arguments have the names that checked construction allows. -/
def Readable (uris : Bool) : Expr → Prop
  | null | bool _ | int _ | float _ | string _ | path _ => True
  | uri _ => uris = true
  | verbatim source => IsVariable source
  | inherit _ => False
  | attrs b => ReadableBindings uris b
  | recAttrs b => ReadableBindings uris b
  | list items => ReadableElements uris items
  | update l r => l.Readable uris ∧ r.Readable uris
  | apply f a => f.Readable uris ∧ a.Readable uris
  | letIn b body => ReadableBindings uris b ∧ body.Readable uris
  | lambda (.name x) body => checkArgumentName x = .ok () ∧ body.Readable uris
  | lambda (.formals items _) body =>
    checkFormals [] items = .ok () ∧ ReadableFormals items ∧ body.Readable uris
  | ifThenElse c y n => c.Readable uris ∧ y.Readable uris ∧ n.Readable uris
  | withScope s body => s.Readable uris ∧ body.Readable uris
  | assertThen c body => c.Readable uris ∧ body.Readable uris
  | importOf p => p.Readable uris
  | select s _ none => ¬ s.EndsOpen ∧ s.Readable uris
  | select s _ (some d) => ¬ s.EndsOpen ∧ s.Readable uris ∧ d.Readable uris

def ReadableBindings (uris : Bool) : List (String × Expr) → Prop
  | [] => True
  | (_, inherit none) :: rest => ReadableBindings uris rest
  | (_, inherit (some scope)) :: rest => IsVariable scope ∧ ReadableBindings uris rest
  | (_, e) :: rest => e.Readable uris ∧ ReadableBindings uris rest

def ReadableElements (uris : Bool) : List Expr → Prop
  | [] => True
  | e :: rest => e.Readable uris ∧ ReadableElements uris rest

def ReadableFormals : List (Formal Expr) → Prop
  | [] => True
  | ⟨_, none⟩ :: rest => ReadableFormals rest
  | ⟨_, some d⟩ :: rest => d.Readable false ∧ ReadableFormals rest

end

theorem bindingTokens_of_ne_inherit (name : String) {e : Expr} (h : ∀ scope, e ≠ inherit scope)
    (ts : List Token) : bindingTokens name e ts = nameToken name :: .equals :: ts := by
  cases e <;> first | rfl | exact absurd rfl (h _)

theorem readableBindings_cons_iff {uris : Bool} (name : String) {e : Expr}
    (h : ∀ scope, e ≠ inherit scope) (b : List (String × Expr)) :
    ReadableBindings uris ((name, e) :: b) ↔ e.Readable uris ∧ ReadableBindings uris b := by
  cases e <;> first | rfl | exact absurd rfl (h _)

end Expr

end NixSource
