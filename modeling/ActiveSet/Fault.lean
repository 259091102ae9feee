/-! Everything that can go wrong, by cause, and the wording of each cause.
-/

namespace ActiveSet

inductive Fault where
  /-- Problem data that should have two axes. -/
  | notMatrix (what : String) (shape : List Nat)
  | notSquare
  | notSymmetric
  | columnCount (expected found : Nat)
  | entryCount (what : String) (expected found : Nat)
  | radiusOrder
  | infeasibleStart
  /-- A threshold that is negative or not finite. -/
  | threshold (what : String)
  | recomputeSign
  | iterationLimit
  | reportInterval
  | columnsShape
  | tooManyColumns
  | hessianShape
  | sharedShape
  | noColumns
  | fullRank
  | columnRange (idx : Int) (columns : Nat)
  | indexRequired
  | notPositive
  | rowsShape
  | costShape
  | noPoint
  /-- Operands whose sizes neither agree nor stretch to each other. -/
  | sizeMismatch
  /-- An operand with fewer axes than the operation reads. -/
  | missingAxis
  | notFinite
  | outOfRange
  /-- A triangular matrix with a zero at this place of its diagonal. -/
  | singular (place : Nat)
  /-- A quadratic equation whose normalized coefficients are not finite. -/
  | illPosed
  | overflow
  | emptyMaximum
  | noIndex
  /-- An array where a single number is needed. -/
  | notNumber
  /-- A matrix that cannot be factored because it is not square. -/
  | squareRequired
  /-- A table cell that holds nothing. -/
  | missingCell
  /-- A table cell that should hold a whole number. -/
  | notWhole
  /-- A field that the receiver does not have. -/
  | unknownField
  | levelName
  | levelKind
  /-- A record layout without a single directive. -/
  | layout
  | unknownStatus
  | tooFewValues
  | undefinedData
deriving DecidableEq, Repr

namespace Fault

def shapeText : List Nat → String
  | [] => "()"
  | [k] => "(" ++ toString k ++ ",)"
  | axes => "(" ++ ", ".intercalate (axes.map toString) ++ ")"

def text : Fault → String
  | notMatrix what shape => what ++ " must be a 2D array, got shape " ++ shapeText shape
  | notSquare => "P must be square"
  | notSymmetric => "P must be symmetric"
  | columnCount expected found =>
    "A must have " ++ toString expected ++ " columns, got " ++ toString found
  | entryCount what expected found =>
    what ++ " must have length " ++ toString expected ++ ", got " ++ toString found
  | radiusOrder => "r_min must not exceed r_max"
  | infeasibleStart => "The initial point is infeasible!"
  | threshold what => what ++ " must be a finite nonnegative number."
  | recomputeSign => "curvature_recompute must be negative."
  | iterationLimit => "max_iter must be nonnegative"
  | reportInterval => "printing_interval must be positive"
  | columnsShape => "A must be a 2D array"
  | tooManyColumns => "Too many columns in the matrix."
  | hessianShape => "Matrix dimensions do not match."
  | sharedShape => "Dimensions do not match."
  | noColumns => "Either A or qr must be provided."
  | fullRank => "Cannot add a column to a full-rank factorization."
  | columnRange idx columns =>
    "column index " ++ toString idx ++ " out of range for " ++ toString columns ++ " columns"
  | indexRequired => "A working constraint index is required."
  | notPositive =>
    "Constraints can be removed only when the reduced Hessian was already Positive Semidefinite."
  | rowsShape => "A and b dimension mismatch"
  | costShape => "c must match the number of columns of A"
  | noPoint => "No feasible point found"
  | sizeMismatch => "operand sizes do not match"
  | missingAxis => "operand has too few axes"
  | notFinite | illPosed => "Array must not contain infs or NaNs"
  | outOfRange => "position out of range"
  | singular place => "singular matrix: resolution failed at diagonal " ++ toString place
  | overflow => "the square of the radius is out of range"
  | emptyMaximum => "the maximum of nothing is undefined"
  | noIndex => "a column index is required"
  | notNumber => "a single number is required"
  | squareRequired => "the matrix must be square"
  | missingCell => "a table cell is empty"
  | notWhole => "a whole number is required"
  | unknownField => "no such field"
  | levelName => "no such level"
  | levelKind => "a level is a number or a name"
  | layout => "the layout has no directive"
  | unknownStatus => "no such status"
  | tooFewValues => "too few values"
  | undefinedData => "the data must be finite"

end Fault

end ActiveSet
