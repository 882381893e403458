import NixSource.Expr.Equality

/-! Values: plain data from outside, to be turned into expressions. -/

namespace NixSource

/-- Plain data, or an expression inside it. `undefined` marks what is not to appear at all, other
than `null`, which appears as `null`. -/
inductive Value where
  | undefined
  | null
  | bool (b : Bool)
  | int (i : Int64)
  | uint (n : UInt64)
  | float (x : Binary64)
  | string (s : String)
  | array (items : List Value)
  | object (members : List (String × Value))
  | expr (e : Expr)

instance : Inhabited Value := ⟨.undefined⟩

namespace Value

/-- What messages call a value of this kind. -/
def kind : Value → String
  | undefined => "undefined"
  | null => "null"
  | bool _ => "bool"
  | int _ => "integer"
  | uint _ => "unsigned integer"
  | float _ => "float"
  | string _ => "string"
  | array _ => "array"
  | object _ => "object"
  | expr _ => "node"

def isUndefined : Value → Bool
  | undefined => true
  | _ => false

mutual

/-- Whether two values are equal up to the order of the members of objects. Floats are equal when
they are as numbers, so a value with a NaN in it is not equal to itself. -/
def same : Value → Value → Bool
  | undefined, undefined => true
  | null, null => true
  | bool a, bool b => a == b
  | int a, int b => a == b
  | uint a, uint b => a == b
  | float a, float b => a.numericEq b
  | string a, string b => a == b
  | array a, array b => sameItems a b
  | object a, object b => a.length == b.length && membersIn b a
  | expr a, expr b => a.same b
  | _, _ => false
termination_by structural x => x

def sameItems : List Value → List Value → Bool
  | [], [] => true
  | a :: as, b :: bs => a.same b && sameItems as bs
  | _, _ => false

/-- Whether every one of some members is, with an equal value, among those of `b`. -/
def membersIn (b : Bindings Value) : List (String × Value) → Bool
  | [] => true
  | (name, value) :: rest =>
    (match b.get? name with
      | some other => value.same other
      | none => false) && membersIn b rest

end

instance : BEq Value := ⟨same⟩

end Value

end NixSource
