import NixSource.Proofs.Bindings.Insertion
import NixSource.Proofs.Description.Equivalence
import NixSource.Proofs.Text.Numeral
import Mathlib.Data.List.DropRight
import Mathlib.Data.List.Nodup

/-! Maps described by calls, each for a key or for a value, in any order. What a call does is said
from the calls before it: a value goes with the last key since the value before, and the first call
at fault ends the description. So the key that is held between calls is all that a description has to
remember. -/

namespace NixSource

/-- A call in the description of a map. -/
inductive MapCall where
  | key (d : Datum)
  | value (d : Datum)

/-- The calls of a step. An entry makes two. -/
def MapStep.calls : MapStep Datum → List MapCall
  | .entry k v => [.key k, .value v]
  | .key k => [.key k]
  | .value v => [.value v]

/-- Whether a value can be the name of an attribute. -/
def Value.isName : Value → Bool
  | .string _ | .int _ | .uint _ | .bool _ => true
  | _ => false

/-- The name that a description comes to as a key. -/
def Datum.keyText (room : Nat) (d : Datum) : Except DatumError String :=
  d.toValue room >>= Value.toKey

namespace MapCall

def isKey : MapCall → Bool
  | key _ => true
  | value _ => false

def content : MapCall → Datum
  | key d | value d => d

/-- The key that waits for a value behind some calls: the last one since the last value. -/
def waiting (before : List MapCall) : Option Datum :=
  (before.rtakeWhile isKey).getLast?.map content

/-- What is wrong with a call behind the calls `before`: its content comes to no value, a key comes
to a value that is no name, or no key waits for a value. -/
def fault? (room : Nat) (before : List MapCall) (call : MapCall) : Option DatumError :=
  match call.content.toValue room with
  | .error e => some e
  | .ok v =>
    match call with
    | key _ => if v.isName then none else some (.keyKind v.kind)
    | value _ => if (waiting before).isSome then none else some .valueWithoutKey

/-- The entry that a call behind the calls `before` makes: a value makes one, under the name of the
key that waits for it. -/
def member? (room : Nat) (before : List MapCall) : MapCall → Option (String × Value)
  | key _ => none
  | value d =>
    match (waiting before).map (Datum.keyText room), d.toValue room with
    | some (.ok name), .ok v => some (name, v)
    | _, _ => none

/-- The fault of the first of some calls, behind the calls `before`, that has one. -/
def firstFault? (room : Nat) (before : List MapCall) : List MapCall → Option DatumError
  | [] => none
  | call :: rest => (fault? room before call).or (firstFault? room (before ++ [call]) rest)

/-- The entries that some calls behind the calls `before` make. -/
def entries (room : Nat) (before : List MapCall) : List MapCall → List (String × Value)
  | [] => []
  | call :: rest => (member? room before call).toList ++ entries room (before ++ [call]) rest

end MapCall

namespace Datum

open MapCall

variable {room : Nat}

/-- What a run over calls comes to, from the members and the calls before them. -/
def outcome (room : Nat) (members : Bindings Value) (before calls : List MapCall) :
    Except DatumError (Bindings Value) :=
  match firstFault? room before calls with
  | some e => .error e
  | none => .ok (members.insertMany (entries room before calls))

/-- A second key takes the place of the first, and one that is left waits for nothing. -/
example : (map [.key (string "a"), .key (int8 1), .value unit, .key (bool true)]).toValue 0 =
    .ok (.object [("1", .null)]) := rfl

end Datum

end NixSource
