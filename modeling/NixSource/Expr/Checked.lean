import NixSource.Expr.Basic
import NixSource.Text.Quotation

/-! Checked construction: the parts of an expression that have to fit together, and why parts that
do not are refused. -/

namespace NixSource

inductive Side where
  | left
  | right
deriving DecidableEq

def Side.name : Side → String
  | left => "left"
  | right => "right"

/-- Why the parts of an expression do not fit together. -/
inductive Malformed where
  | notFinite (x : Binary64)
  | noScheme (text : String)
  /-- The text, already anchored, is no path literal. -/
  | notPath (text : String)
  /-- An operand of a merge, of the given kind, is never an attribute set. -/
  | notMergeable (side : Side) (kind : String)
  | argumentName (name : String)
  | repeatedArgument (name : String)
  | emptyAttributePath
  /-- An attribute set was needed and something of the given kind was there. -/
  | notSet (kind : String)
deriving DecidableEq

namespace Malformed

/-- What the refused parts were to become. -/
def subject : Malformed → String
  | notFinite _ => "float"
  | noScheme _ => "url"
  | notPath _ => "path"
  | notMergeable _ _ => "attribute set merge"
  | argumentName _ | repeatedArgument _ => "function"
  | emptyAttributePath => "attribute reference"
  | notSet _ => "attribute set"

def reason : Malformed → String
  | notFinite x => String.ofList x.text ++ " has no Nix representation"
  | noScheme s => quotation s ++ " does not start with a scheme"
  | notPath s => quotation s ++ " is not a valid path literal"
  | notMergeable side kind =>
    side.name ++ " operand (" ++ kind ++ ") cannot be an attribute set"
  | argumentName name => quotation name ++ " is not a valid argument name"
  | repeatedArgument name => "argument " ++ name ++ " is declared twice"
  | emptyAttributePath => "the attribute path is empty"
  | notSet kind => "expected an attribute set, found " ++ kind

def message (m : Malformed) : String :=
  "Malformed " ++ m.subject ++ ": " ++ m.reason

end Malformed

def FiniteFloat.checked (x : Binary64) : Except Malformed FiniteFloat :=
  match ofBinary64? x with
  | some f => .ok f
  | none => .error (.notFinite x)

def Uri.checked (s : String) : Except Malformed Uri :=
  match ofString? s with
  | some u => .ok u
  | none => .error (.noScheme s)

/-- A path literal. What is refused is the path after anchoring. -/
def PathLiteral.checked (s : String) : Except Malformed PathLiteral :=
  match ofString? s with
  | some p => .ok p
  | none => .error (.notPath (anchorPath s))

def AttributePath.checked : List String → Except Malformed AttributePath
  | [] => .error .emptyAttributePath
  | first :: rest => .ok ⟨first, rest⟩

/-- The name of an argument has to be an identifier that is not reserved. -/
def checkArgumentName (name : String) : Except Malformed Unit :=
  if isBareName name then .ok () else .error (.argumentName name)

/-- Arguments are checked in order, each for its own name and then against `earlier` names. -/
def checkFormals {α : Type} (earlier : List String) : List (Formal α) → Except Malformed Unit
  | [] => .ok ()
  | f :: rest =>
    match checkArgumentName f.name with
    | .error e => .error e
    | .ok () =>
      if earlier.contains f.name then .error (.repeatedArgument f.name)
      else checkFormals (earlier ++ [f.name]) rest

theorem checkArgumentName_eq_ok_iff (name : String) :
    checkArgumentName name = .ok () ↔ isBareName name = true := by
  unfold checkArgumentName
  split <;> simp [*]

theorem checkFormals_cons {α : Type} (earlier : List String) (f : Formal α)
    (rest : List (Formal α)) :
    checkFormals earlier (f :: rest) =
      if isBareName f.name then
        if f.name ∈ earlier then .error (.repeatedArgument f.name)
        else checkFormals (earlier ++ [f.name]) rest
      else .error (.argumentName f.name) := by
  rw [checkFormals, checkArgumentName]
  by_cases hname : isBareName f.name <;> simp [hname]

/-- The names that a function binds are valid and distinct. -/
def Params.check {α : Type} : Params α → Except Malformed Unit
  | .name x => checkArgumentName x
  | .formals items _ => checkFormals [] items

namespace Expr

/-- The set of the attributes of both operands, those on the right first in rank. The left operand
is checked before the right one. -/
def merge (left right : Expr) : Except Malformed Expr :=
  if !left.canBeSet then .error (.notMergeable .left left.kind)
  else if !right.canBeSet then .error (.notMergeable .right right.kind)
  else .ok (.update left right)

def function (params : Params Expr) (body : Expr) : Except Malformed Expr :=
  match params.check with
  | .ok () => .ok (.lambda params body)
  | .error e => .error e

theorem function_eq_ok_iff (params : Params Expr) (body e : Expr) :
    function params body = .ok e ↔ params.check = .ok () ∧ e = .lambda params body := by
  unfold function
  split <;> simp [*, eq_comm]

theorem function_eq_error_iff (params : Params Expr) (body : Expr) (m : Malformed) :
    function params body = .error m ↔ params.check = .error m := by
  unfold function
  split <;> simp [*]

/-- The bindings of an attribute set that is not recursive. -/
def bindings : Expr → Except Malformed (Bindings Expr)
  | attrs b => .ok b
  | e => .error (.notSet e.kind)

end Expr

end NixSource
