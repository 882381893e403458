import NixSource.Binary.Binary64
import NixSource.Bindings
import NixSource.PathLiteral
import NixSource.Uri

/-! Expressions of the Nix language as trees, and the name of each kind of expression. -/

namespace NixSource

/-- A named argument of a function, with the expression to use when the caller gives none. -/
structure Formal (α : Type) where
  name : String
  default : Option α

/-- What a function binds: its argument under one name, or named attributes of its argument, with
`ellipsis` allowing others. -/
inductive Params (α : Type) where
  | name (x : String)
  | formals (items : List (Formal α)) (ellipsis : Bool)

/-- The attributes a selection follows, one at least. -/
structure AttributePath where
  first : String
  rest : List String
deriving DecidableEq

def AttributePath.toList (p : AttributePath) : List String :=
  p.first :: p.rest

/-- An expression. `verbatim` is source text that is taken as it is. `inherit` stands for the value
of a binding that takes it from the scope around the set, or from the named scope. -/
inductive Expr where
  | null
  | bool (b : Bool)
  | int (i : Int64)
  | float (x : FiniteFloat)
  | string (s : String)
  | uri (u : Uri)
  | path (p : PathLiteral)
  | verbatim (source : String)
  | inherit (scope : Option String)
  | attrs (bindings : List (String × Expr))
  | recAttrs (bindings : List (String × Expr))
  | list (items : List Expr)
  | update (left right : Expr)
  | apply (function argument : Expr)
  | letIn (bindings : List (String × Expr)) (body : Expr)
  | lambda (params : Params Expr) (body : Expr)
  | ifThenElse (condition yes no : Expr)
  | withScope (scope body : Expr)
  | assertThen (condition body : Expr)
  | importOf (path : Expr)
  | select (set : Expr) (path : AttributePath) (fallback : Option Expr)

instance : Inhabited Expr := ⟨.null⟩

namespace Expr

/-- What messages call an expression of this kind. -/
def kind : Expr → String
  | null => "null"
  | bool _ => "bool"
  | int _ => "int"
  | float _ => "float"
  | string _ => "string"
  | uri _ => "url"
  | path _ => "path"
  | verbatim _ => "expression"
  | inherit _ => "inherit"
  | attrs _ => "attribute set"
  | recAttrs _ => "recursive attribute set"
  | list _ => "list"
  | update _ _ => "attribute set merge"
  | apply _ _ => "function invocation"
  | letIn _ _ => "let expression"
  | lambda _ _ => "function"
  | ifThenElse _ _ _ => "if expression"
  | withScope _ _ => "with expression"
  | assertThen _ _ => "assert expression"
  | importOf _ => "import"
  | select _ _ _ => "attribute reference"

/-- Whether the expression can evaluate to an attribute set at all. -/
def canBeSet : Expr → Bool
  | null | bool _ | int _ | float _ | string _ | uri _ | path _ | inherit _ | list _ | lambda _ _ =>
    false
  | verbatim _ | attrs _ | recAttrs _ | update _ _ | apply _ _ | letIn _ _ | ifThenElse _ _ _
  | withScope _ _ | assertThen _ _ | importOf _ | select _ _ _ => true

end Expr

end NixSource
