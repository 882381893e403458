import NixSource.Expr.WellFormed
import NixSource.Datum
import NixSource.Fixture.Suite
import NixSource.Proofs.Expr.Arguments
import NixSource.Proofs.Conversion.FirstFault
import NixSource.Proofs.Printer.StringPlace
import NixSource.Proofs.Syntax.Grouping
import NixSource.Proofs.Data.RoundTrip
import NixSource.Proofs.Printer.Lines
import NixSource.Proofs.Description.Json
import NixSource.Proofs.Description.Equivalence
import NixSource.Proofs.Description.Room
import NixSource.Proofs.Equality.Laws
import NixSource.Proofs.Text.StringLiteral
import NixSource.Proofs.Json.Conversion
import NixSource.Proofs.Fixture.Report
import NixSource.Proofs.Description.MapCalls
import NixSource.Proofs.Syntax.Boundary
import NixSource.Proofs.Syntax.Selection
import NixSource.Proofs.Syntax.Nesting
import NixSource.Proofs.Syntax.Formals
import NixSource.Proofs.Syntax.Fallback
import NixSource.Proofs.Conversion.Omissions
import NixSource.Proofs.Conversion.Replacement
import NixSource.Proofs.Conversion.DepthLimit
import NixSource.Proofs.Equality.Conversion
import NixSource.Proofs.Printer.OneLine
import NixSource.Proofs.Equality.Printing
import NixSource.Proofs.Syntax.AttributeName
import NixSource.Proofs.Conversion.Paths
import NixSource.Proofs.Syntax.PathForm
import NixSource.Proofs.Syntax.UriForm
import NixSource.Proofs.Bindings.Runs
import NixSource.Proofs.Description.Content
