import ActiveSet.ReducedHessian
import ActiveSet.Solver.Start
import ActiveSet.Tensor

/-! Loosely shaped data taken in: shapes are checked in a fixed order, and what passes has its sizes in its
type.
-/

namespace ActiveSet

namespace Intake

variable {α : Type} [Scalar α]

def matrix (what : String) (t : Tensor α) : Except Fault (Nat × Nat) :=
  match t.shape with
  | [r, c] => .ok (r, c)
  | shape => .error (.notMatrix what shape)

def vector (what : String) (n : Nat) (t : Tensor α) : Except Fault (Vec α n) :=
  match Vec.ofList? n t.flatten with
  | some v => .ok v
  | none => .error (.entryCount what n t.size)

def solver (P q A b x : Tensor α) (bounds : RadiusBounds α) (tol : Tolerances α) :
    Except Fault ((m : Nat) × (n : Nat) × Solver α m n × List (Event α)) := do
  tol.validate
  let (n, c) ← matrix "P" P
  if c ≠ n then throw .notSquare
  let P := P.toMat n n
  if !P.isSymmetric then throw .notSymmetric
  let (m, c) ← matrix "A" A
  if c ≠ n then throw (.columnCount n c)
  let q ← vector "q" n q
  let b ← vector "b" m b
  let x ← vector "x_init" n x
  let s ← Solver.start ⟨P, q, A.toMat m n, b⟩ x bounds tol
  return ⟨m, n, s⟩

def columns (A : Tensor α) : Except Fault ((n : Nat) × OrthogonalFactor α n) :=
  match A.shape with
  | [n, k] => (OrthogonalFactor.ofColumns (A.toMat n k)).map fun F => ⟨n, F⟩
  | _ => .error .columnsShape

def reducedFactor (P A : Tensor α) (tol : Tolerances α) :
    Except Fault ((n : Nat) × CurvatureRule α × Mat α n n × ReducedFactor α n) :=
  match P.shape, A.shape with
  | [r, c], [n, k] =>
    if n = r ∧ r = c then
      (OrthogonalFactor.ofColumns (A.toMat n k)).map fun basis =>
        let P := P.toMat n n
        let rule := tol.rule P
        ⟨n, rule, P, ReducedFactor.ofFactor rule P basis⟩
    else .error .hessianShape
  | _, _ => .error .hessianShape

/-- Whether the first two axes of `P` have length `n`. They are looked at one after the other. -/
def squareOf (n : Nat) (P : Tensor α) : Except Fault Bool :=
  match P.shape with
  | [] => .error .missingAxis
  | [r] => if n = r then .error .missingAxis else .ok false
  | r :: c :: _ => .ok (n = r && r = c)

/-- The plain restriction of `P` to the free directions. Further axes of `P` are only let pass if all of
it is one number and the direction is free. -/
def restrict {n : Nat} (P : Tensor α) (basis : OrthogonalFactor α n) :
    Except Fault ((n : Nat) × Mat α n n × ReducedHessian α n) :=
  if P.shape.length = 2 ∨ (P.size = 1 ∧ basis.nullity = 1) then
    let P := P.toMat n n
    .ok ⟨n, P, ReducedHessian.ofFactor P basis⟩
  else .error .sizeMismatch

def reducedHessian (P : Tensor α) (A shared : Option (Tensor α)) :
    Except Fault ((n : Nat) × Mat α n n × ReducedHessian α n) :=
  match shared, A with
  | some W, _ => do
    let ⟨n, basis⟩ ← columns W
    if ← squareOf n P then restrict P basis else throw .sharedShape
  | none, none => .error .noColumns
  | none, some A =>
    match A.shape with
    | [n, k] => do
      if ← squareOf n P then restrict P (← OrthogonalFactor.ofColumns (A.toMat n k))
      else throw .hessianShape
    | _ => .error .hessianShape

/-- Why an array with rows that is no square matrix cannot be factored. Its axes longer than one are
taken as those of a matrix, the second with all after it in one; only if that matrix is square does the
number of axes itself matter. -/
def cholesky.refusal (M : Tensor α) : Fault :=
  let axes := M.shape.filter (1 < ·)
  if M.shape.length ≠ 2 ∧ M.size = 0 then .sizeMismatch
  else if M.shape.length = 2 ∨ axes.headD 1 ≠ Tensor.volume axes.tail then .squareRequired
  else if M.shape.length = 1 then .missingAxis
  else .sizeMismatch

/-- The pivoted Cholesky factorization of a square matrix. Nothing is read of an array without rows. -/
def cholesky (M : Tensor α) (tol curvature : α) : Except Fault ((n : Nat) × Cholesky α n) :=
  match M.shape with
  | [] => .error .missingAxis
  | n :: rest =>
    if n = 0 ∨ rest = [n] then .ok ⟨n, Cholesky.ofMat (M.toMat n n) tol curvature⟩
    else .error (cholesky.refusal M)

/-- Where the line through `x` along `d` meets a sphere. Only vectors span a line; operands that can be
multiplied are refused after the radius. -/
def crossings (x d : Tensor α) (radius : α) : Except Fault (List α) :=
  match Tensor.productShape? d.shape d.shape, Tensor.productShape? d.shape x.shape,
    Tensor.productShape? x.shape x.shape with
  | some [], some [], some [] =>
    Sphere.crossings x.size (fun i => x.entries.getD i 0) (fun i => d.entries.getD i 0) radius
  | some _, some _, some _ => (Sphere.square radius).bind fun _ => .error .sizeMismatch
  | _, _, _ => .error .sizeMismatch

variable {n : Nat}

def column (F : OrthogonalFactor α n) (a : Tensor α) : Except Fault (Vec α n) :=
  if n ≤ F.size then .error .fullRank
  else
    match Vec.ofList? n a.flatten with
    | some v => .ok v
    | none => .error .sizeMismatch

end Intake

end ActiveSet
