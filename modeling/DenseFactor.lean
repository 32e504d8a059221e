import DenseFactor.Cholesky.Basic
import DenseFactor.Cholesky.Pivoted
import DenseFactor.LU.Basic
import DenseFactor.Matrix.Block
import DenseFactor.Matrix.Equation
import DenseFactor.Matrix.Norm
import DenseFactor.Matrix.Product
import DenseFactor.Method
import DenseFactor.Proofs.Cholesky.Complement
import DenseFactor.Proofs.Cholesky.Factorization
import DenseFactor.Proofs.Cholesky.Pivoted
import DenseFactor.Proofs.Cholesky.Reduction
import DenseFactor.Proofs.Edit
import DenseFactor.Proofs.LU.Determinant
import DenseFactor.Proofs.LU.Elimination
import DenseFactor.Proofs.LU.Factorization
import DenseFactor.Proofs.LU.Packed
import DenseFactor.Proofs.LU.Pivot
import DenseFactor.Proofs.LU.Substitution
import DenseFactor.Proofs.LeastSquares
import DenseFactor.Proofs.Order
import DenseFactor.Proofs.Orthogonal
import DenseFactor.Proofs.Outcome
import DenseFactor.Proofs.QR.Factorization
import DenseFactor.Proofs.QR.RankRevealing
import DenseFactor.Proofs.QR.Reflection
import DenseFactor.Proofs.QR.Reflector
import DenseFactor.Proofs.QR.Solver
import DenseFactor.Proofs.SVD.Bidiagonal
import DenseFactor.Proofs.SVD.Factorization
import DenseFactor.Proofs.SVD.Iteration
import DenseFactor.Proofs.SVD.NaN
import DenseFactor.Proofs.SVD.Rotation
import DenseFactor.Proofs.SVD.Turning
import DenseFactor.Proofs.SVD.Values
import DenseFactor.Proofs.Scalar.Binary
import DenseFactor.Proofs.Scalar.Canonical
import DenseFactor.Proofs.Scalar.Exact
import DenseFactor.Proofs.Scalar.Monotone
import DenseFactor.Proofs.Scalar.Ratio
import DenseFactor.Proofs.Scalar.Real
import DenseFactor.Proofs.Scalar.Rounding
import DenseFactor.Proofs.Stored
import DenseFactor.Proofs.Triangular
import DenseFactor.QR.Basic
import DenseFactor.QR.RankRevealing
import DenseFactor.SVD.Basic
import DenseFactor.Scalar.Binary
import DenseFactor.Scalar.Cartesian
import DenseFactor.Scalar.Ratio
import DenseFactor.Proofs.PseudoInverse
import DenseFactor.Proofs.Product
import DenseFactor.Proofs.SVD.Memo
import DenseFactor.Proofs.SVD.PseudoInverse
import DenseFactor.Proofs.Columns
import DenseFactor.Proofs.Solver.Basic
import DenseFactor.Proofs.Solver.Columns
import DenseFactor.Proofs.LU.Shape
import DenseFactor.Proofs.QR.Shape
import DenseFactor.Proofs.Cholesky.Shape
import DenseFactor.Proofs.SVD.Shape
import DenseFactor.Proofs.Scalar.Identity
import DenseFactor.Proofs.Solver.Contract
import DenseFactor.Proofs.Bounds
import DenseFactor.Proofs.Agreement
import DenseFactor.Proofs.Permutation
import DenseFactor.Proofs.Tolerance
import DenseFactor.Proofs.Cholesky.Symmetry
import DenseFactor.Proofs.Scalar.Root
import DenseFactor.Proofs.Cholesky.Finite
import DenseFactor.Proofs.LU.Divisor
import DenseFactor.Proofs.Scalar.Widening
import DenseFactor.Proofs.LU.Ranking
import DenseFactor.Proofs.QR.Rank
import DenseFactor.Proofs.QR.Vectors
import DenseFactor.Proofs.QR.Head
import DenseFactor.Proofs.QR.Skipped
import DenseFactor.Proofs.QR.Singular
import DenseFactor.Proofs.Scalar.Sum
import DenseFactor.Proofs.Scalar.Product
import DenseFactor.Proofs.Scalar.Size
import DenseFactor.Proofs.QR.FullRank
import DenseFactor.Proofs.Cholesky.Solver
import DenseFactor.Proofs.LU.Growth
import DenseFactor.Proofs.LU.Minors
import DenseFactor.Proofs.SVD.Norm
import DenseFactor.Proofs.SVD.Divisor
import DenseFactor.Proofs.LU.RowOrder
import DenseFactor.Proofs.Scalar.Quotient
import DenseFactor.Proofs.SVD.Condition
import DenseFactor.Proofs.SVD.Covariance
import DenseFactor.Proofs.Scalar.ZeroTerm
import DenseFactor.Proofs.Scalar.Checked
import DenseFactor.Proofs.Kernels
import DenseFactor.Proofs.ProductVector
import DenseFactor.Proofs.QR.Gram
import DenseFactor.Proofs.QR.Scaling
import DenseFactor.Proofs.Swap
import DenseFactor.Proofs.Block
import DenseFactor.Proofs.Workspace
