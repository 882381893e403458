import NixSource.Proofs.Description.MapCalls
import NixSource.Proofs.Value.WellFormed

/-! The shapes of descriptions: what a description says on its own, whatever the types that it
speaks of, and which descriptions are inside it. From its shape one knows what value it comes to, if
it comes to one. -/

namespace NixSource

/-- The entry that a call behind the calls `before` describes, whether or not its content comes to a
value. -/
def MapCall.given? (room : Nat) (before : List MapCall) : MapCall → Option (String × Datum)
  | key _ => none
  | value d => (waiting before).bind fun k => (k.keyText room).toOption.map (·, d)

/-- The entries that some calls behind the calls `before` describe. -/
def MapCall.given (room : Nat) (before : List MapCall) : List MapCall → List (String × Datum)
  | [] => []
  | call :: rest => (given? room before call).toList ++ given room (before ++ [call]) rest

namespace Datum

end Datum

/-! ### The descriptions inside a description -/

variable {room : Nat}

namespace Datum

end Datum

/-! ### The value of a description -/

namespace Datum

end Datum

namespace Datum

end Datum

end NixSource
