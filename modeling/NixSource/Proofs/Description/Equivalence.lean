import NixSource.Proofs.Description.Agreement

/-! Equivalent descriptions: those that describe the same data in other words, anywhere inside them.
They agree, so the data alone decides the expression or the error. The lengths that lists are
announced with are no data, but they have to find room, or not to find it, alike. -/

namespace NixSource.Datum

/-- The integer that is described, whatever its width. -/
def integer? : Datum → Option Int
  | int8 i => some i.toInt
  | int16 i => some i.toInt
  | int32 i => some i.toInt
  | int64 i => some i.toInt
  | uint8 n => some n.toNat
  | uint16 n => some n.toNat
  | uint32 n => some n.toNat
  | uint64 n => some n.toNat
  | _ => none

/-- A description with one part left out, directly below it. -/
inductive Frame where
  | present
  | wrapper (name : String)
  | sequenceItem (hint : Option Nat) (before after : List Datum)
  | tupleItem (length : Nat) (before after : List Datum)
  | namedTupleItem (name : String) (length : Nat) (before after : List Datum)
  | entryKey (before : List (MapStep Datum)) (value : Datum) (after : List (MapStep Datum))
  | entryValue (before : List (MapStep Datum)) (key : Datum) (after : List (MapStep Datum))
  | key (before after : List (MapStep Datum))
  | value (before after : List (MapStep Datum))
  | recordField (name : String) (before : List (String × Option Datum)) (field : String)
    (after : List (String × Option Datum))
  | wrapperVariant (type variant : String)
  | tupleVariantItem (type variant : String) (length : Nat) (before after : List Datum)
  | recordVariantField (type variant : String) (before : List (String × Option Datum))
    (field : String) (after : List (String × Option Datum))

def Frame.plug : Frame → Datum → Datum
  | present, d => .present d
  | wrapper name, d => .wrapper name d
  | sequenceItem hint before after, d => .sequence hint (before ++ d :: after)
  | tupleItem length before after, d => .tuple length (before ++ d :: after)
  | namedTupleItem name length before after, d => .namedTuple name length (before ++ d :: after)
  | entryKey before v after, d => .map (before ++ .entry d v :: after)
  | entryValue before k after, d => .map (before ++ .entry k d :: after)
  | key before after, d => .map (before ++ .key d :: after)
  | value before after, d => .map (before ++ .value d :: after)
  | recordField name before field after, d => .record name (before ++ (field, some d) :: after)
  | wrapperVariant type variant, d => .wrapperVariant type variant d
  | tupleVariantItem type variant length before after, d =>
    .tupleVariant type variant length (before ++ d :: after)
  | recordVariantField type variant before field after, d =>
    .recordVariant type variant (before ++ (field, some d) :: after)

open Value

variable {room : Nat}

theorem StepAgrees.refl : (s : MapStep Datum) → StepAgrees room s s
  | .entry k v => .entry (.refl k) (.refl v)
  | .key k => .key (.refl k)
  | .value v => .value (.refl v)

theorem FieldAgrees.refl : (f : String × Option Datum) → FieldAgrees room f f
  | (name, none) => .skipped name
  | (name, some d) => .field name (.refl d)

end NixSource.Datum
