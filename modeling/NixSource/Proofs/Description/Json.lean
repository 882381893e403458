import NixSource.Proofs.Description.Agreement

/-! Two ways from a JSON document to an expression: by the value of the document, and by the
description that the document gives of itself. They agree, though the two values may hold the same
integer differently. -/

namespace NixSource

open Value

variable {room : Nat}

theorem agree_describe_number (n : JsonNumber) :
    Agree Alike (n.describe.toValue room) (.ok n.toValue) := by
  cases n with
  | natural n =>
    by_cases h : n.toNat < 9223372036854775808
    · exact .ok (by simp [Alike, JsonNumber.toValue_natural, signed, h])
    · exact .ok (by simp [Alike, JsonNumber.toValue_natural, h])
  | negative i => exact .ok (.refl (.int i))
  | float x => exact .ok (.refl (.float x.value))

namespace Json

theorem length_describeItems (items : List Json) : (describeItems items).length = items.length := by
  induction items with
  | nil => rfl
  | cons j items ih => rw [describeItems, List.length_cons, ih, List.length_cons]

mutual

theorem agree_describe : (j : Json) → Agree Alike (j.describe.toValue room) (.ok j.toValue)
  | null => .ok (.refl .null)
  | bool b => .ok (.refl (.bool b))
  | number n => agree_describe_number n
  | string s => .ok (.refl (.string s))
  | array items => by
    -- An array announces as many items as it has, for which there is room.
    rw [describe, Datum.toValue, toValue, length_describeItems, Option.getD_some,
      Datum.arrayValue_of_hasRoom (hasRoom_self room items.length)]
    exact (agree_describeItems items).bind_ok fun vs hvs => .ok hvs.array
  | object members => by
    rw [describe, Datum.toValue, toValue]
    exact (agree_describeMembers members [] [] rfl).bind_ok fun ms hms => .ok hms.object

theorem agree_describeItems : (items : List Json) →
    Agree ItemsAlike (Datum.itemValues room (describeItems items)) (.ok (itemValues items))
  | [] => .ok rfl
  | j :: rest => by
    rw [describeItems, Datum.itemValues, itemValues]
    refine (agree_describe j).bind_ok fun v hv => ?_
    exact (agree_describeItems rest).bind_ok fun vs hvs => .ok (ItemsAlike.cons hv hvs)

/-- Members that describe themselves as entries are bound one after the other, as the members of a
document are. -/
theorem agree_describeMembers : (members : List (String × Json)) → ∀ (a b : Bindings Value),
    MembersAlike a b → Agree MembersAlike (Datum.runSteps room a none (describeMembers members))
      (.ok (b.insertMany (memberValues members)))
  | [], _, _, h => .ok h
  | (name, j) :: rest, a, b, h => by
    rw [describeMembers, Datum.runSteps]
    -- The key is a string, so no error comes between it and the value of the member.
    change Agree MembersAlike
      (j.describe.toValue room >>= fun v =>
        Datum.runSteps room (a.insert name v) none (describeMembers rest)) _
    refine (agree_describe j).bind_ok fun v hv => ?_
    exact agree_describeMembers rest _ _ (h.insert hv name)

end

/-- A document that describes itself has the same expression as its value, or the same error, and
the same source text in every layout. -/
theorem toExpr_describe (room : Nat) (j : Json) :
    j.describe.toExpr room = (j.toValue.toExpr Value.defaultDepthLimit).mapError .conversion ∧
      ∀ layout,
        j.describe.toSource room layout = (j.toValue.toSource layout).mapError .conversion := by
  have hexpr : j.describe.toExpr room =
      (j.toValue.toExpr Value.defaultDepthLimit).mapError .conversion := by
    have h : Agree Alike (j.describe.toValue room) (.ok j.toValue) := agree_describe j
    unfold Datum.toExpr
    generalize j.describe.toValue room = x at h
    cases h with
    | ok hv => simp only [Alike.toExpr hv]
  refine ⟨hexpr, fun layout => ?_⟩
  rw [Datum.toSource, Value.toSource, hexpr]
  cases j.toValue.toExpr Value.defaultDepthLimit <;> rfl

end Json

end NixSource
