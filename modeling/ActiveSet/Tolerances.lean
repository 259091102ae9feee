import ActiveSet.Fault
import ActiveSet.ReducedFactor

/-! The thresholds of a solve.
-/

namespace ActiveSet

structure Tolerances (α : Type) where
  /-- Slack allowed at the start; a smaller lower radius is no bound. -/
  feasibility : α
  /-- Distance to a radius bound at which a solve stops. -/
  radiusMargin : α
  /-- Largest gradient along the free directions that counts as solved. -/
  projectedGradient : α
  /-- Smallest rate at which an ignored row can block a step. -/
  blocking : α
  indefinite : α
  /-- Multipliers above its negative count as nonnegative. -/
  multiplier : α
  curvatureRecompute : α
  /-- Curvatures up to this multiple of the largest entry of the Hessian count as zero. -/
  relativeCurvature : α

namespace Tolerances

variable {α : Type} [Scalar α]

def standard : Tolerances α where
  feasibility := 1e-9
  radiusMargin := 1e-10
  projectedGradient := 1e-10
  blocking := 1e-11
  indefinite := 1e-12
  multiplier := 1e-8
  curvatureRecompute := -10.0
  relativeCurvature := 1e-12

/-- The thresholds that must be finite and nonnegative, with their names, in the order of the check. -/
def magnitudes (t : Tolerances α) : List (String × α) :=
  [("feasibility", t.feasibility), ("radius_margin", t.radiusMargin),
   ("projected_gradient", t.projectedGradient), ("blocking", t.blocking),
   ("indefinite", t.indefinite), ("multiplier", t.multiplier),
   ("relative_curvature", t.relativeCurvature)]

def validate (t : Tolerances α) : Except Fault Unit :=
  match t.magnitudes.find? fun m => !(Scalar.isFinite m.2 && decide (0 ≤ m.2)) with
  | some m => .error (.threshold m.1)
  | none => if t.curvatureRecompute < 0 then .ok () else .error .recomputeSign

def rule {n : Nat} (t : Tolerances α) (P : Mat α n n) : CurvatureRule α :=
  ⟨t.indefinite, t.curvatureRecompute, t.relativeCurvature * P.scale⟩

end Tolerances

end ActiveSet
