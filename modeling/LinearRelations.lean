import LinearRelations.Report
import LinearRelations.Numeric.ConstantValue
import LinearRelations.Text.Scientific
import LinearRelations.Proofs.Expand
import LinearRelations.Proofs.Collect
import LinearRelations.Proofs.Divide
import LinearRelations.Proofs.Isolation.Soundness
import LinearRelations.Proofs.Exact.Generic
import LinearRelations.Proofs.Isolation.Outcome
import LinearRelations.Proofs.Isolation.Operands
import LinearRelations.Proofs.Syntax.Relation
import LinearRelations.Proofs.Isolation.Answer
import LinearRelations.Proofs.Numeric.Evaluation
import LinearRelations.Proofs.Report
import LinearRelations.Proofs.Syntax.OnePass
import LinearRelations.Proofs.Syntax.Scanning
import LinearRelations.Proofs.Syntax.Balance
import LinearRelations.Proofs.Exact.RationalPoint
import LinearRelations.Proofs.Isolation.Dependence
import LinearRelations.Proofs.Isolation.Residual
import LinearRelations.Proofs.Isolation.Swapped
import LinearRelations.Proofs.NormalForm
import LinearRelations.Proofs.Termination
import LinearRelations.Proofs.Joined
import LinearRelations.Proofs.Factor
import LinearRelations.Proofs.Fold
import LinearRelations.Proofs.Isolation.Rename
import LinearRelations.Proofs.Isolation.Canonical
import LinearRelations.Proofs.Isolation.Sign
import LinearRelations.Proofs.Decomposition
import LinearRelations.Proofs.Derived
import LinearRelations.Proofs.Snippet.Grammar
import LinearRelations.Proofs.Snippet.Literal
import LinearRelations.Proofs.Snippet.Reading
import LinearRelations.Proofs.Numeric.Doubles
import LinearRelations.Proofs.Numeric.Rounding
import LinearRelations.Proofs.Numeric.Tolerance
