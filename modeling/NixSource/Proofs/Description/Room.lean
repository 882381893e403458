import NixSource.Datum

/-! What the room for lists decides: whether a description runs out of it, and nothing else. With more
room a description comes to the value or the error that it came to before, unless it was for want of
room that it came to none. -/

namespace NixSource

/-- `Roomier x y`: the second outcome is the first, which may have come short only of room. -/
inductive Roomier {α : Type} : Except DatumError α → Except DatumError α → Prop where
  | same (x : Except DatumError α) : Roomier x x
  | ranOut (y : Except DatumError α) : Roomier (.error .noRoom) y

namespace Roomier

variable {α β : Type} {room room' : Nat}

theorem bind {x y : Except DatumError α} {f g : α → Except DatumError β} (h : Roomier x y)
    (hfg : ∀ a, Roomier (f a) (g a)) : Roomier (x >>= f) (y >>= g) := by
  cases h with
  | same =>
    cases x with
    | error e => exact .same (.error e)
    | ok a => exact hfg a
  | ranOut => exact .ranOut (y >>= g)

theorem bind_same {x y : Except DatumError α} (h : Roomier x y) (f : α → Except DatumError β) :
    Roomier (x >>= f) (y >>= f) :=
  h.bind fun a => .same (f a)

theorem eq_of_ne {x y : Except DatumError α} (h : Roomier x y) (hx : x ≠ .error .noRoom) :
    y = x := by
  cases h with
  | same => rfl
  | ranOut => exact absurd rfl hx

end Roomier

theorem hasRoom_mono {room room' announced length : Nat} (h : room ≤ room')
    (hroom : hasRoom room announced length = true) : hasRoom room' announced length = true := by
  simp only [hasRoom, decide_eq_true_eq] at hroom ⊢
  omega

namespace Datum

variable {room room' : Nat}

theorem roomier_arrayValue (h : room ≤ room') {vs ws : Except DatumError (List Value)}
    (hvs : Roomier vs ws) (announced length : Nat) :
    Roomier (arrayValue room announced length vs) (arrayValue room' announced length ws) := by
  by_cases hroom : hasRoom room announced length = true
  · rw [arrayValue_of_hasRoom hroom, arrayValue_of_hasRoom (hasRoom_mono h hroom)]
    cases hvs with
    | same => exact .same _
    | ranOut => exact .ranOut _
  · rw [arrayValue_of_not_hasRoom hroom]
    exact .ranOut _

mutual

theorem roomier_toValue (h : room ≤ room') : (d : Datum) →
    Roomier (d.toValue room) (d.toValue room')
  | bool _ | int8 _ | int16 _ | int32 _ | int64 _ | int128 _ | uint8 _ | uint16 _ | uint32 _
  | uint64 _ | uint128 _ | float32 _ | float64 _ | char _ | string _ | shown _ | bytes _ | absent
  | unit | namedUnit _ | unitVariant _ _ | failure _ => .same _
  | present content | wrapper _ content => roomier_toValue h content
  | sequence hint items => roomier_arrayValue h (roomier_itemValues h items) (hint.getD 0) _
  | tuple length items | namedTuple _ length items =>
    roomier_arrayValue h (roomier_itemValues h items) length _
  | map steps => (roomier_runSteps h steps [] none).bind_same _
  | record _ fields => (roomier_fieldValues h fields []).bind_same _
  | wrapperVariant _ _ content => (roomier_toValue h content).bind_same _
  | tupleVariant _ _ length items =>
    (roomier_arrayValue h (roomier_itemValues h items) length _).bind_same _
  | recordVariant _ _ fields => (roomier_fieldValues h fields []).bind_same _

theorem roomier_itemValues (h : room ≤ room') : (items : List Datum) →
    Roomier (itemValues room items) (itemValues room' items)
  | [] => .same _
  | d :: rest => (roomier_toValue h d).bind fun _ => (roomier_itemValues h rest).bind_same _

theorem roomier_fieldValues (h : room ≤ room') : (fields : List (String × Option Datum)) →
    ∀ members, Roomier (fieldValues room members fields) (fieldValues room' members fields)
  | [], _ => .same _
  | (_, none) :: rest, members => roomier_fieldValues h rest members
  | (_, some d) :: rest, _ => (roomier_toValue h d).bind fun _ => roomier_fieldValues h rest _

theorem roomier_runSteps (h : room ≤ room') : (steps : List (MapStep Datum)) →
    ∀ members pending,
      Roomier (runSteps room members pending steps) (runSteps room' members pending steps)
  | [], _, _ => .same _
  | .entry k v :: rest, _, _ =>
    (roomier_toValue h k).bind fun kv => (Roomier.same kv.toKey).bind fun _ =>
      (roomier_toValue h v).bind fun _ => roomier_runSteps h rest _ none
  | .key k :: rest, members, _ =>
    (roomier_toValue h k).bind fun kv => (Roomier.same kv.toKey).bind fun name =>
      roomier_runSteps h rest members (some name)
  | .value v :: rest, _, some _ =>
    (roomier_toValue h v).bind fun _ => roomier_runSteps h rest _ none
  | .value v :: _, _, none => (roomier_toValue h v).bind_same _

end

/-- A description that has the room it asks for comes to the same expression or error with more. -/
theorem toExpr_of_room_le (h : room ≤ room') {d : Datum}
    (hd : d.toExpr room ≠ .error (.datum .noRoom)) : d.toExpr room' = d.toExpr room := by
  have hvalue : d.toValue room ≠ .error .noRoom := by
    intro hnone
    rw [toExpr, hnone] at hd
    exact hd rfl
  rw [toExpr, (roomier_toValue h d).eq_of_ne hvalue, toExpr]

end Datum

end NixSource
