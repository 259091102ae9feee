import ActiveSet.Solver
import ActiveSet.Stretch
import ActiveSet.Table

/-! Snapshots of a solve, and how they are printed.
-/

namespace ActiveSet

namespace Solver

variable {α : Type} [Scalar α] {m n : Nat}

/-- The Frobenius norm of the difference of two blocks, which stretch to each other. -/
def gap (r c : Nat) (M : Nat → Nat → α) (r' c' : Nat) (N : Nat → Nat → α) : Except Fault α :=
  match stretch? r r', stretch? c c' with
  | some rows, some cols =>
    let difference := fun i j =>
      M (stretched r i) (stretched c j) - N (stretched r' i) (stretched c' j)
    .ok (Scalar.sqrt (sum rows fun i => sum cols fun j => difference i j * difference i j))
  | _, _ => .error .sizeMismatch

def gaps (s : Solver α m n) : Except Fault (Gaps α) := do
  let F := s.factor
  let P := s.problem.P
  let Q := F.basis.q
  let reversed := fun j => (Vec.ofFn fun i => F.z i (F.width - 1 - j) : Vec α n)
  let working := s.rows.workingRows
  let curvature ←
    gap F.size F.size (fun i j => sum F.size fun k => F.u k i * (F.d k * F.u k j))
      F.width F.width fun i j => dot n (P.applyT (reversed i)) (reversed j)
  let orthogonality ←
    gap n n (fun i j => dot n (fun k => Q k i) fun k => Q k j) n n fun i j => if i = j then 1 else 0
  let columns ←
    gap n F.basis.size (fun i j => sum F.basis.size fun k => Q i k * if k ≤ j then F.basis.r k j else 0)
      n working.length fun i j => (working[j]?.map fun a => a i).getD 0
  return ⟨curvature, orthogonality, columns⟩

def snapshot (s : Solver α m n) (diagnostics : Bool) : Except Fault (Snapshot α) := do
  let gaps ← if diagnostics then (s.gaps).map some else pure none
  return {
    iteration := s.iteration
    objective := s.objective
    infeasibility := s.infeasibility
    radius := s.radius
    residual := s.residual
    curvature := s.factor.last?
    working := s.rows.working.length
    artificial := s.factor.artificial
    gaps }

end Solver

def Snapshot.row (s : Snapshot Float) : String :=
  Table.Texts.line
    { iteration := toString s.iteration
      objective := Table.number s.objective
      infeasibility := Table.number s.infeasibility
      radius := Table.number s.radius
      residual := Table.residual (s.residual.getD Double.undefined)
      curvature := Table.number (s.curvature.getD Double.undefined)
      working := toString s.working
      artificial := toString s.artificial
      gaps := (s.gaps.map fun g => [g.curvature, g.orthogonality, g.columns].map Table.number).getD [] }

end ActiveSet
