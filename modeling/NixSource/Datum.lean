import NixSource.Conversion
import NixSource.Json.Basic

/-! Data as typed programs describe it: numbers by their width, options, units, tuples, records and
the variants of sum types. A list is announced with a length before its items, and room is made for
that many values at once, which may be more than there is. Descriptions that differ only in the
types they speak of come to the same value. -/

namespace NixSource

/-- A step in the description of a map: an entry, or a key and a value on their own. -/
inductive MapStep (α : Type) where
  | entry (key value : α)
  | key (k : α)
  | value (v : α)

/-- A description of data. Types and their variants are given by name. The lengths of lists are what
is announced, which need not be how many items come; `failure` is a description that breaks off with
a message; a field without content is one that was left out on purpose. -/
inductive Datum where
  | bool (b : Bool)
  | int8 (i : Int8)
  | int16 (i : Int16)
  | int32 (i : Int32)
  | int64 (i : Int64)
  | int128 (i : Int)
  | uint8 (n : UInt8)
  | uint16 (n : UInt16)
  | uint32 (n : UInt32)
  | uint64 (n : UInt64)
  | uint128 (n : Nat)
  | float32 (x : Binary32)
  | float64 (x : Binary64)
  | char (c : Char)
  | string (s : String)
  | shown (s : String)
  | bytes (bs : List UInt8)
  | absent
  | present (content : Datum)
  | unit
  | namedUnit (name : String)
  | wrapper (name : String) (content : Datum)
  | sequence (lengthHint : Option Nat) (items : List Datum)
  | tuple (length : Nat) (items : List Datum)
  | namedTuple (name : String) (length : Nat) (items : List Datum)
  | map (steps : List (MapStep Datum))
  | record (name : String) (fields : List (String × Option Datum))
  | unitVariant (type variant : String)
  | wrapperVariant (type variant : String) (content : Datum)
  | tupleVariant (type variant : String) (length : Nat) (items : List Datum)
  | recordVariant (type variant : String) (fields : List (String × Option Datum))
  | failure (message : String)

/-- Why a description comes to no value. -/
inductive DatumError where
  /-- The description broke off with a message. -/
  | failure (message : String)
  | wideInteger
  | wideNatural
  | valueWithoutKey
  | keyKind (kind : String)
  /-- There is no room for as many values as were announced. It ends everything on the spot. -/
  | noRoom
deriving DecidableEq

def DatumError.message : DatumError → String
  | failure message => message
  | wideInteger => "i128 is not supported"
  | wideNatural => "u128 is not supported"
  | valueWithoutKey => "serialize_value called before serialize_key"
  | keyKind kind => "map key must be a string, integer, boolean or char, got " ++ kind
  | noRoom => "capacity overflow"

/-- The name that a value is when it stands as a key. -/
def Value.toKey : Value → Except DatumError String
  | .string s => .ok s
  | .int i => .ok (String.ofList (integerText i.toInt))
  | .uint n => .ok (String.ofList (decimalText n.toNat))
  | .bool true => .ok "true"
  | .bool false => .ok "false"
  | v => .error (.keyKind v.kind)

/-- A variant with content: an object with the content under the variant's name. -/
def Value.tagged (variant : String) (content : Value) : Value :=
  .object [(variant, content)]

/-- Whether there is room for a list of `length` values that is announced as `announced` long. The
values themselves always have the room they need; beyond them there is room for `room` values at
most. -/
def hasRoom (room announced length : Nat) : Bool :=
  announced ≤ max room length

@[simp] theorem hasRoom_self (room length : Nat) : hasRoom room length length = true :=
  decide_eq_true (Nat.le_max_right room length)

namespace Datum

/-- An array of `length` values that is announced as `announced` long. The room for it is made before
the first of the values is worked out. -/
def arrayValue (room announced length : Nat) (values : Except DatumError (List Value)) :
    Except DatumError Value :=
  if hasRoom room announced length then values.map .array else .error .noRoom

theorem arrayValue_of_hasRoom {room announced length : Nat}
    (h : hasRoom room announced length = true) (values : Except DatumError (List Value)) :
    arrayValue room announced length values = values.map .array :=
  if_pos h

theorem arrayValue_of_not_hasRoom {room announced length : Nat}
    (h : ¬ hasRoom room announced length = true) (values : Except DatumError (List Value)) :
    arrayValue room announced length values = .error .noRoom :=
  if_neg h

mutual

/-- The value that a description comes to, where lists find room for `room` values in advance. Parts
are taken in order, and the first error ends it. A sequence without a length makes no room. -/
def toValue (room : Nat) : Datum → Except DatumError Value
  | bool b => .ok (.bool b)
  | int8 i => .ok (.int i.toInt64)
  | int16 i => .ok (.int i.toInt64)
  | int32 i => .ok (.int i.toInt64)
  | int64 i => .ok (.int i)
  | int128 _ => .error .wideInteger
  | uint8 n => .ok (.uint n.toUInt64)
  | uint16 n => .ok (.uint n.toUInt64)
  | uint32 n => .ok (.uint n.toUInt64)
  | uint64 n => .ok (.uint n)
  | uint128 _ => .error .wideNatural
  | float32 x => .ok (.float x.widen)
  | float64 x => .ok (.float x)
  | char c => .ok (.string (String.ofList [c]))
  | string s => .ok (.string s)
  | shown s => .ok (.string s)
  | bytes bs => .ok (.array (bs.map fun b => .int (Int64.ofInt b.toNat)))
  | absent => .ok .null
  | present content => content.toValue room
  | unit => .ok .null
  | namedUnit _ => .ok .null
  | wrapper _ content => content.toValue room
  | sequence hint items => arrayValue room (hint.getD 0) items.length (itemValues room items)
  | tuple length items => arrayValue room length items.length (itemValues room items)
  | namedTuple _ length items => arrayValue room length items.length (itemValues room items)
  | map steps => do .ok (.object (← runSteps room [] none steps))
  | record _ fields => do .ok (.object (← fieldValues room [] fields))
  | unitVariant _ variant => .ok (.string variant)
  | wrapperVariant _ variant content => do .ok (.tagged variant (← content.toValue room))
  | tupleVariant _ variant length items => do
    .ok (.tagged variant (← arrayValue room length items.length (itemValues room items)))
  | recordVariant _ variant fields => do
    .ok (.tagged variant (.object (← fieldValues room [] fields)))
  | failure message => .error (.failure message)

def itemValues (room : Nat) : List Datum → Except DatumError (List Value)
  | [] => .ok []
  | d :: rest => do
    let v ← d.toValue room
    .ok (v :: (← itemValues room rest))

/-- The members of a record, on top of those before it. A repeated field keeps its place and takes
the new content. -/
def fieldValues (room : Nat) (members : Bindings Value) :
    List (String × Option Datum) → Except DatumError (Bindings Value)
  | [] => .ok members
  | (_, none) :: rest => fieldValues room members rest
  | (name, some d) :: rest => do
    fieldValues room (members.insert name (← d.toValue room)) rest

/-- The members of a map, on top of those before it, while `pending` is the key that waits for its
value. A second key takes the place of the first, and one that is left at the end is dropped. -/
def runSteps (room : Nat) (members : Bindings Value) (pending : Option String) :
    List (MapStep Datum) → Except DatumError (Bindings Value)
  | [] => .ok members
  | .entry k v :: rest => do
    let key ← (← k.toValue room).toKey
    runSteps room (members.insert key (← v.toValue room)) none rest
  | .key k :: rest => do
    let key ← (← k.toValue room).toKey
    runSteps room members (some key) rest
  | .value v :: rest => do
    let value ← v.toValue room
    match pending with
    | some key => runSteps room (members.insert key value) none rest
    | none => .error .valueWithoutKey

end

end Datum

/-- How a number of a document describes itself: by its sign, and as a float only if it is one. -/
def JsonNumber.describe : JsonNumber → Datum
  | natural n => .uint64 n
  | negative i => .int64 i
  | float x => .float64 x.value

namespace Json

mutual

def describe : Json → Datum
  | null => .unit
  | bool b => .bool b
  | number n => n.describe
  | string s => .string s
  | array items => .sequence (some items.length) (describeItems items)
  | object members => .map (describeMembers members)

def describeItems : List Json → List Datum
  | [] => []
  | j :: rest => j.describe :: describeItems rest

/-- Members describe themselves as entries, with their keys as strings. -/
def describeMembers : List (String × Json) → List (MapStep Datum)
  | [] => []
  | (name, j) :: rest => .entry (.string name) j.describe :: describeMembers rest

end

end Json

/-- Why described data has no expression. -/
inductive DescriptionError where
  | datum (error : DatumError)
  | conversion (error : ConversionError)
deriving DecidableEq

def DescriptionError.message : DescriptionError → String
  | datum e => e.message
  | conversion e => e.message

namespace Datum

def toExpr (room : Nat) (d : Datum) : Except DescriptionError Expr :=
  match d.toValue room with
  | .error e => .error (.datum e)
  | .ok v => (v.toExpr Value.defaultDepthLimit).mapError .conversion

def toSource (room : Nat) (layout : Layout) (d : Datum) : Except DescriptionError String :=
  (d.toExpr room).map fun e => e.source 0 layout

end Datum

end NixSource
