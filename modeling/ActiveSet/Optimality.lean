import ActiveSet.Problem
import ActiveSet.Stretch
import ActiveSet.Tensor

/-! The conditions of optimality, checked from the data alone.

At a point `x` with multipliers `λ` the four residuals are the largest entries of `P x + q + Aᵀ λ`, of the
violation of `A x ≤ b`, of the violation of `λ ≥ 0`, and of `λ (b - A x)`. Only the symmetric part of `P`
counts.
-/

namespace ActiveSet

structure Residuals (α : Type) where
  stationarity : α
  primal : α
  dual : α
  complementary : α

namespace Residuals

variable {α : Type} [Scalar α] {m n : Nat}

/-- From the size of the gradient of the Lagrangian, the slacks (`p` entries) and the multipliers (`m`
entries, a single one stretching over the slacks). Without rows only stationarity is left. -/
def ofParts (stationarity : α) (p m : Nat) (slack lam : Nat → α) : Residuals α where
  stationarity := stationarity
  primal := if m = 0 then 0 else Scalar.larger (maximum (p - 1) fun i => -slack i) 0
  dual := if m = 0 then 0 else Scalar.larger (maximum (m - 1) fun i => -lam i) 0
  complementary :=
    if m = 0 then 0 else maximum (p - 1) fun i => Scalar.abs (slack i * lam (stretched m i))

def ofProblem (p : Problem α m n) (x : Vec α n) (lam : Vec α m) : Residuals α :=
  let slope := p.P.symmetrize.apply x
  let pull := p.A.applyT lam
  let reach := p.A.apply x
  ofParts (maximum (n - 1) fun i => Scalar.abs (slope i + p.q i + pull i)) m m
    (fun i => p.b i - reach i) lam

def all (r : Residuals α) : List α := [r.stationarity, r.primal, r.dual, r.complementary]

def optimal (r : Residuals α) (tol : α) : Bool := r.all.all fun v => decide (v ≤ tol)

end Residuals

namespace Intake

variable {α : Type} [Scalar α]

/-- The residuals of loosely shaped data. `A` is read in rows of the size of `x`; sizes of one stretch. -/
def residuals (P q A b x : Tensor α) (lam : Option (Tensor α)) : Except Fault (Residuals α) := do
  let n := x.size
  if n = 0 ∨ A.size % n ≠ 0 then throw .sizeMismatch
  let m := A.size / n
  let some x := Vec.ofList? n x.flatten | throw .sizeMismatch
  let some lam := Vec.ofList? m ((lam.map Tensor.flatten).getD (List.replicate m 0))
    | throw .sizeMismatch
  let A := A.toMat m n
  match P.shape, Vec.ofList? n q.flatten, Vec.ofList? m b.flatten with
  | [r, c], some q, some b =>
    if r = n ∧ c = n then return Residuals.ofProblem ⟨P.toMat n n, q, A, b⟩ x lam
  | _, _, _ => pure ()
  let slope ← (← P.symmetrize).apply x
  let known ← slope.combine (· + ·) (Tensor.ofList q.flatten)
  let gradient ← known.combine (· + ·) (Tensor.ofList (A.applyT lam).toList)
  let reach := A.apply x
  let b := b.flatten
  let some p := stretch? b.length m | throw .sizeMismatch
  if p = 0 ∧ m ≠ 0 then throw .emptyMaximum
  return Residuals.ofParts (← gradient.largest) p m
    (fun i => b.getD (stretched b.length i) 0 - reach (stretched m i)) lam

end Intake

end ActiveSet
