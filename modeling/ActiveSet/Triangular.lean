import ActiveSet.Fault
import ActiveSet.Vec

/-! Triangular systems in the leading `k` by `k` block of a matrix.

Both solves refuse a block or a right-hand side that is not finite, a right-hand side of another size,
and a zero on the diagonal. The whole square block is looked at, also the half that is not used.
-/

namespace ActiveSet

namespace Triangular

variable {α : Type} [Scalar α]

/-- `U x = b`, from the last unknown up. -/
def backward (k : Nat) (U : Nat → Nat → α) (b : Nat → α) : Vec α k :=
  descend k (fun x i =>
    x.set i ((b i - sum (k - (i + 1)) fun t => U i (i + 1 + t) * x (i + 1 + t)) / U i i)) 0

/-- `Uᵀ x = b`, from the first unknown down. -/
def forward (k : Nat) (U : Nat → Nat → α) (b : Nat → α) : Vec α k :=
  ascend k (fun x i => x.set i ((b i - sum i fun t => U t i * x t) / U i i)) 0

def finite (k : Nat) (U : Nat → Nat → α) (b : Nat → α) : Bool :=
  (List.range k).all fun i =>
    Scalar.isFinite (b i) && (List.range k).all fun j => Scalar.isFinite (U i j)

def zeroPivot? (k : Nat) (U : Nat → Nat → α) : Option Nat :=
  (List.range k).find? fun i => Scalar.same (U i i) 0

def accept (k size : Nat) (U : Nat → Nat → α) (b : Nat → α) : Except Fault Unit :=
  if size ≠ k then .error .sizeMismatch
  else if finite k U b then
    match zeroPivot? k U with
    | some i => .error (.singular i)
    | none => .ok ()
  else .error .notFinite

def solve (k size : Nat) (U : Nat → Nat → α) (b : Nat → α) : Except Fault (Vec α k) :=
  (accept k size U b).map fun _ => backward k U b

def solveT (k size : Nat) (U : Nat → Nat → α) (b : Nat → α) : Except Fault (Vec α k) :=
  (accept k size U b).map fun _ => forward k U b

end Triangular

end ActiveSet
