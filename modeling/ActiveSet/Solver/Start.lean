import ActiveSet.Solver

/-! The start of a solve: a feasible point, no working rows, and the Hessian factored as far as it is
positive definite.
-/

namespace ActiveSet

namespace Solver

variable {α : Type} [Scalar α] {m n : Nat}

/-- Refuses an empty range; a lower bound under the feasibility tolerance is replaced by one that
nothing violates. -/
def acceptBounds (tol : Tolerances α) (bounds : RadiusBounds α) : Except Fault (RadiusBounds α) :=
  if bounds.upper.any fun upper => decide (upper < bounds.lower) then .error .radiusOrder
  else .ok { bounds with lower := if bounds.lower < tol.feasibility then -1 else bounds.lower }

def violates (tol : Tolerances α) (p : Problem α m n) (bounds : RadiusBounds α) (x : Vec α n) : Bool :=
  let radius := norm n x
  (m ≠ 0 && decide (tol.feasibility ≤ maximum (m - 1) (p.excess x))) ||
    decide (radius - bounds.lower ≤ -tol.feasibility) ||
    bounds.upper.any fun upper => decide (tol.feasibility ≤ radius - upper)

/-- The factorization before the first step. If nothing could be factored one direction is set free. -/
def initialFactor (tol : Tolerances α) (P : Mat α n n) : Outcome α (ReducedFactor α n) Unit :=
  let rule := tol.rule P
  let F := ReducedFactor.ofFactor rule P OrthogonalFactor.empty
  let built : Outcome α (ReducedFactor α n) Unit := ⟨F, F.initialEvents, .ok ()⟩
  -- without a factored direction there would be no curvature to go by
  if F.size = 0 ∧ 0 < F.artificial then built.andThen fun F _ => F.remove rule P none else built

def start (p : Problem α m n) (x : Vec α n) (bounds : RadiusBounds α) (tol : Tolerances α) :
    Except Fault (Solver α m n × List (Event α)) := do
  tol.validate
  if !p.P.isSymmetric then throw .notSymmetric
  let bounds ← acceptBounds tol bounds
  if violates tol p bounds x then throw .infeasibleStart
  let F := initialFactor tol p.P
  F.result
  return (
    { problem := p, bounds, tolerances := tol, x, multipliers := 0, residual := none, iteration := 0
      done := false, ray := none, rows := WorkingSet.start p.A.rows p.b.toList, factor := F.state },
    F.events)

end Solver

end ActiveSet
