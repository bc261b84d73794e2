import SymbolicAlgebra.Graph
import SymbolicAlgebra.Main
import SymbolicAlgebra.Proofs.Rewrite.Steps
import SymbolicAlgebra.Proofs.Binary64.Sign
import SymbolicAlgebra.Proofs.Binary64.Rational
import SymbolicAlgebra.Proofs.Rewrite.Measure
import SymbolicAlgebra.Proofs.Rewrite.Descent
import SymbolicAlgebra.Proofs.Rewrite.Settle
import SymbolicAlgebra.Proofs.Rewrite.Limit
import SymbolicAlgebra.Proofs.Rewrite.NormalForm
import SymbolicAlgebra.Proofs.Exact.Number
import SymbolicAlgebra.Proofs.Exact.Value
import SymbolicAlgebra.Proofs.Exact.Simplify
import SymbolicAlgebra.Proofs.Equation.Isolate
import SymbolicAlgebra.Proofs.Rewrite.Affine
import SymbolicAlgebra.Proofs.Equation.Limit
import SymbolicAlgebra.Proofs.Equation.Settle
import SymbolicAlgebra.Proofs.Equation.FixedPoint
import SymbolicAlgebra.Proofs.Exact.Transposition
import SymbolicAlgebra.Proofs.Exact.Equation
import SymbolicAlgebra.Proofs.Equation.Affine
import SymbolicAlgebra.Proofs.Exact.Linear
import SymbolicAlgebra.Proofs.Exact.QuotientFree
import SymbolicAlgebra.Proofs.Exact.Denote
import SymbolicAlgebra.Proofs.Exact.Laurent
import SymbolicAlgebra.Proofs.Exact.Remainder
import SymbolicAlgebra.Proofs.Reading.Completeness
import SymbolicAlgebra.Proofs.Reading.Soundness
import SymbolicAlgebra.Proofs.Binary64.Datum
import SymbolicAlgebra.Proofs.Decimal.Literal
import SymbolicAlgebra.Proofs.Token.Canonical
import SymbolicAlgebra.Proofs.Reading.RoundTrip
import SymbolicAlgebra.Proofs.Token.Substitution
import SymbolicAlgebra.Proofs.Exact.Evaluation
import SymbolicAlgebra.Proofs.Reading.Substitution
import SymbolicAlgebra.Proofs.Reading.Instantiation
import SymbolicAlgebra.Proofs.Session.Solve
import SymbolicAlgebra.Proofs.Token.Juxtaposition
import SymbolicAlgebra.Proofs.Reading.Juxtaposition
import SymbolicAlgebra.Proofs.Graph.Faithful
import SymbolicAlgebra.Proofs.Reading.Viable
import SymbolicAlgebra.Proofs.Rewrite.Sides
import SymbolicAlgebra.Proofs.Evaluation.Defined
import SymbolicAlgebra.Proofs.Evaluation.Fold
import SymbolicAlgebra.Proofs.Evaluation.FirstFault
import SymbolicAlgebra.Proofs.Token.Lossless
import SymbolicAlgebra.Proofs.Reading.Called
import SymbolicAlgebra.Proofs.Decimal.Enclosure
import SymbolicAlgebra.Proofs.Decimal.Figures
import SymbolicAlgebra.Proofs.Expr.Identity
import SymbolicAlgebra.Proofs.Binary64.Unsigned
import SymbolicAlgebra.Proofs.Reading.Leaves
import SymbolicAlgebra.Proofs.Typeset.Extent
import SymbolicAlgebra.Proofs.Typeset.Factors
import SymbolicAlgebra.Proofs.Typeset.Front
import SymbolicAlgebra.Proofs.Typeset.Grouped
import SymbolicAlgebra.Proofs.Typeset.Value
import SymbolicAlgebra.Proofs.Equation.Renaming
