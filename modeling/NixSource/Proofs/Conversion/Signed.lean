import NixSource.Datum

/-! Values up to how they hold integers. An unsigned integer and a signed one of the same value are
converted alike and make the same key. -/

namespace NixSource

namespace Value

mutual

/-- A value with its unsigned integers as signed ones, where they fit. -/
def signed : Value → Value
  | undefined => undefined
  | null => null
  | bool b => bool b
  | int i => int i
  | uint n => if n.toNat < 9223372036854775808 then int (Int64.ofInt n.toNat) else uint n
  | float x => float x
  | string s => string s
  | array items => array (signedItems items)
  | object members => object (signedMembers members)
  | expr e => expr e

def signedItems : List Value → List Value
  | [] => []
  | v :: rest => v.signed :: signedItems rest

def signedMembers : List (String × Value) → List (String × Value)
  | [] => []
  | (name, v) :: rest => (name, v.signed) :: signedMembers rest

end

theorem signedMembers_insert (name : String) (v : Value) (b : Bindings Value) :
    signedMembers (b.insert name v) = Bindings.insert name v.signed (signedMembers b) := by
  induction b with
  | nil => rfl
  | cons p b ih =>
    obtain ⟨k, w⟩ := p
    by_cases h : k = name <;> simp [Bindings.insert, signedMembers, h, ih]

mutual

theorem convertAt_signed (limit : Nat) (here : Location) : (v : Value) →
    v.signed.convertAt limit here = v.convertAt limit here
  | undefined | null | bool _ | int _ | float _ | string _ | expr _ => rfl
  | uint n => by
    rw [signed]
    split
    · next h => rw [convertAt, convertAt, if_pos h]
    · rfl
  | array items => by
    rw [signed, convertAt, convertAt, convertItems_signed limit here 0 items]
  | object members => by
    rw [signed, convertAt, convertAt, convertMembers_signed limit here members]

theorem convertItems_signed (limit : Nat) (here : Location) : (i : Nat) → (items : List Value) →
    convertItems limit here i (signedItems items) = convertItems limit here i items
  | _, [] => rfl
  | i, v :: rest => by
    rw [signedItems, convertItems, convertItems, convertAt_signed limit _ v,
      convertItems_signed limit here (i + 1) rest]

theorem convertMembers_signed (limit : Nat) (here : Location) :
    (members : List (String × Value)) →
    convertMembers limit here (signedMembers members) = convertMembers limit here members
  | [] => rfl
  | (name, v) :: rest => by
    rw [signedMembers, convertMembers, convertMembers, convertAt_signed limit _ v,
      convertMembers_signed limit here rest]

end

/-- How integers are held has no part in a conversion, nor in what is logged on the way. -/
theorem convert_signed (limit : Nat) (v : Value) : v.signed.convert limit = v.convert limit := by
  rw [convert, convert, convertAt_signed]

theorem integerText_ofInt {n : Nat} (h : n < 9223372036854775808) :
    integerText (Int64.ofInt n).toInt = decimalText n := by
  rw [Int64.toInt_ofInt_of_le (by omega) (by omega)]
  simp [integerText]

theorem toKey_signed (v : Value) : v.signed.toKey = v.toKey := by
  cases v with
  | uint n =>
    rw [signed]
    split
    · next h => rw [toKey, toKey, integerText_ofInt h]
    · rfl
  | _ => rfl

end Value

end NixSource
