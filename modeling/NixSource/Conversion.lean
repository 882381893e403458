import NixSource.Expr.Printer
import NixSource.Value

/-! Conversion of values into expressions. Undefined members and elements are left out, numbers
without a literal and containers nested too deep are errors that say where they were found, and a
log tells what was left out and what went wrong. -/

namespace NixSource

/-- A step from a container into it: the key of a member or the index of an element. -/
inductive Segment where
  | key (name : String)
  | index (i : Nat)
deriving DecidableEq

/-- The steps from a whole value to a part of it. -/
abbrev Location := List Segment

namespace Location

def segmentText : Segment → String
  | .key name => "." ++ name
  | .index i => "[" ++ String.ofList (decimalText i) ++ "]"

def stepsText : Location → String
  | [] => ""
  | s :: rest => segmentText s ++ stepsText rest

/-- A location as messages show it. A key that comes first has no point before it. -/
def text : Location → String
  | [] => "(root)"
  | .key name :: rest => name ++ stepsText rest
  | steps => stepsText steps

end Location

/-- Why a value has no expression. -/
inductive ConversionError where
  | tooLarge (location : Location) (n : UInt64)
  | notFinite (location : Location) (x : Binary64)
  /-- A container is nested in `limit` others or more. -/
  | tooDeep (location : Location) (limit : Nat)
  | undefinedRoot
deriving DecidableEq

/-- The text of an error, with the place it is about. -/
def ConversionError.message : ConversionError → String
  | tooLarge location n =>
    "Unsupported value at " ++ location.text ++ ": unsigned integer " ++
      String.ofList (decimalText n.toNat) ++ " exceeds the Nix integer range"
  | notFinite location x =>
    "Unsupported value at " ++ location.text ++ ": float " ++ String.ofList x.text ++
      " has no Nix representation"
  | tooDeep location limit =>
    "Nesting deeper than " ++ String.ofList (decimalText limit) ++ " levels at " ++
      location.text ++ ", the value is cyclic or too deep"
  | undefinedRoot => "Cannot convert an undefined value without an enclosing attribute set"

inductive Event where
  | omittedElement (location : Location)
  | omittedMember (location : Location)
  | failed (error : ConversionError)
deriving DecidableEq

def Event.message : Event → String
  | omittedElement _ => "omitting undefined element"
  | omittedMember _ => "omitting undefined member"
  | failed _ => "value conversion failed"

inductive LogLevel where
  | trace
  | debug
deriving DecidableEq

/-- An event as the log shows it. The subject is the path of what was left out, or the text of the
error. -/
structure LogLine where
  level : LogLevel
  message : String
  subject : String
deriving DecidableEq

def Event.line (e : Event) : LogLine :=
  match e with
  | omittedElement location | omittedMember location => ⟨.trace, e.message, location.text⟩
  | failed error => ⟨.debug, e.message, error.message⟩

/-- An outcome, and what was logged on the way to it. -/
structure Logged (α : Type) where
  events : List Event
  outcome : Except ConversionError α

namespace Logged

variable {α β : Type}

protected def pure (a : α) : Logged α :=
  ⟨[], .ok a⟩

def fail (e : ConversionError) : Logged α :=
  ⟨[], .error e⟩

def log (e : Event) : Logged Unit :=
  ⟨[e], .ok ()⟩

/-- What follows an error is not done, so it logs nothing. -/
protected def bind (x : Logged α) (f : α → Logged β) : Logged β :=
  match x.outcome with
  | .ok a => ⟨x.events ++ (f a).events, (f a).outcome⟩
  | .error e => ⟨x.events, .error e⟩

instance : Monad Logged where
  pure := Logged.pure
  bind := Logged.bind

@[simp] theorem pure_eq (a : α) : (pure a : Logged α) = ⟨[], .ok a⟩ := rfl

@[simp] theorem bind_ok (events : List Event) (a : α) (f : α → Logged β) :
    ((⟨events, .ok a⟩ : Logged α) >>= f) = ⟨events ++ (f a).events, (f a).outcome⟩ := rfl

@[simp] theorem bind_error (events : List Event) (e : ConversionError) (f : α → Logged β) :
    ((⟨events, .error e⟩ : Logged α) >>= f) = ⟨events, .error e⟩ := rfl

/-- The log as it is read. -/
def lines (x : Logged α) : List LogLine :=
  x.events.map Event.line

end Logged

namespace Value

/-- Containers may be nested in fewer than this many others, unless a limit is given. -/
def defaultDepthLimit : Nat := 128

mutual

/-- The expression of the value at `here`, or nothing for an undefined one. The depth of a container
is checked before its members are looked at. -/
def convertAt (limit : Nat) (here : Location) : Value → Logged (Option Expr)
  | undefined => pure none
  | null => pure (some .null)
  | bool b => pure (some (.bool b))
  | int i => pure (some (.int i))
  | uint n =>
    if n.toNat < 9223372036854775808 then pure (some (.int (Int64.ofInt n.toNat)))
    else Logged.fail (.tooLarge here n)
  | float x =>
    match FiniteFloat.ofBinary64? x with
    | some f => pure (some (.float f))
    | none => Logged.fail (.notFinite here x)
  | string s => pure (some (.string s))
  | array items =>
    if limit ≤ here.length then Logged.fail (.tooDeep here limit)
    else do return some (.list (← convertItems limit here 0 items))
  | object members =>
    if limit ≤ here.length then Logged.fail (.tooDeep here limit)
    else do return some (.attrs (← convertMembers limit here members))
  | expr e => pure (some e)

def convertItems (limit : Nat) (here : Location) (i : Nat) : List Value → Logged (List Expr)
  | [] => pure []
  | v :: rest => do
    match ← convertAt limit (here ++ [.index i]) v with
    | some e => return e :: (← convertItems limit here (i + 1) rest)
    | none =>
      Logged.log (.omittedElement (here ++ [.index i]))
      convertItems limit here (i + 1) rest

def convertMembers (limit : Nat) (here : Location) :
    List (String × Value) → Logged (Bindings Expr)
  | [] => pure []
  | (name, v) :: rest => do
    match ← convertAt limit (here ++ [.key name]) v with
    | some e => return (name, e) :: (← convertMembers limit here rest)
    | none =>
      Logged.log (.omittedMember (here ++ [.key name]))
      convertMembers limit here rest

end

/-- The expression of a whole value. An error inside the value is logged as well as returned. -/
def convert (limit : Nat) (v : Value) : Logged Expr :=
  match convertAt limit [] v with
  | ⟨events, .ok (some e)⟩ => ⟨events, .ok e⟩
  | ⟨events, .ok none⟩ => ⟨events, .error .undefinedRoot⟩
  | ⟨events, .error e⟩ => ⟨events ++ [.failed e], .error e⟩

/-- The expression of a whole value, with containers nested in fewer than `limit` others. -/
def toExpr (limit : Nat) (v : Value) : Except ConversionError Expr :=
  (v.convert limit).outcome

def toSource (layout : Layout) (v : Value) : Except ConversionError String :=
  (v.toExpr defaultDepthLimit).map fun e => e.source 0 layout

end Value

end NixSource
