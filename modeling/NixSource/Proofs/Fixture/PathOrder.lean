import NixSource.Fixture.Suite
import Mathlib.Data.String.Basic

/-! The order in which test cases are run. Names are compared as strings are, and paths as lists of
names are, so any two different paths are in order one way and not the other. -/

namespace NixSource

end NixSource
