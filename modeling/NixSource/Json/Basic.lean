import NixSource.Value

/-! JSON documents and the values they are. -/

namespace NixSource

/-- A number of a document: an integer of 64 bits where it fits one, otherwise a finite float. -/
inductive JsonNumber where
  | natural (n : UInt64)
  | negative (i : Int64)
  | float (x : FiniteFloat)

inductive Json where
  | null
  | bool (b : Bool)
  | number (n : JsonNumber)
  | string (s : String)
  | array (items : List Json)
  | object (members : List (String × Json))

instance : Inhabited Json := ⟨.null⟩

namespace JsonNumber

/-- A number as a signed integer of 64 bits, if it is one. -/
def int64? : JsonNumber → Option Int64
  | natural n => if n.toNat < 9223372036854775808 then some (Int64.ofInt n.toNat) else none
  | negative i => some i
  | float _ => none

/-- A number as an unsigned integer of 64 bits, if it was read as one. -/
def uint64? : JsonNumber → Option UInt64
  | natural n => some n
  | negative _ => none
  | float _ => none

/-- A number as the nearest float. -/
def float64? : JsonNumber → Option Binary64
  | natural n => some (.ofDecimal false ⟨n.toNat, 0⟩)
  | negative i => some (.ofDecimal (decide (i.toInt < 0)) ⟨i.toInt.natAbs, 0⟩)
  | float x => some x.value

/-- An integer is a signed one where it fits. -/
def toValue (n : JsonNumber) : Value :=
  match n.int64? with
  | some i => .int i
  | none =>
    match n.uint64? with
    | some u => .uint u
    | none => .float (n.float64?.getD .nan)

theorem toValue_natural (n : UInt64) :
    (natural n).toValue =
      if n.toNat < 9223372036854775808 then .int (Int64.ofInt n.toNat) else .uint n := by
  by_cases h : n.toNat < 9223372036854775808
  · simp [toValue, int64?, h]
  · simp [toValue, int64?, uint64?, h]

@[simp] theorem toValue_negative (i : Int64) : (negative i).toValue = .int i := rfl

@[simp] theorem toValue_float (x : FiniteFloat) : (float x).toValue = .float x.value := rfl

end JsonNumber

namespace Json

mutual

/-- The value of a document. Members are bound one after the other. -/
def toValue : Json → Value
  | null => .null
  | bool b => .bool b
  | number n => n.toValue
  | string s => .string s
  | array items => .array (itemValues items)
  | object members => .object (Bindings.ofList (memberValues members))

def itemValues : List Json → List Value
  | [] => []
  | j :: rest => j.toValue :: itemValues rest

def memberValues : List (String × Json) → List (String × Value)
  | [] => []
  | (name, j) :: rest => (name, j.toValue) :: memberValues rest

end

end Json

end NixSource
