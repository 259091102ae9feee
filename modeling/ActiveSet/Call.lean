import ActiveSet.Intake
import ActiveSet.Solve

/-! Whole calls of the solver: options and loosely shaped data in, a report or a point out.

The options are looked at before the data. What a call has reported by the time a fault ends it is not lost, so the
events stand beside the result.
-/

namespace ActiveSet

/-- What a call comes to: what it has reported, and its result or the fault that it passes on. -/
structure Called (α β : Type) where
  events : List (Event α)
  result : Except Fault β

/-- What a call returns, and what its caller has made of the snapshots that it was shown. -/
structure Answer (α σ : Type) where
  m : Nat
  n : Nat
  report : Report α m n
  seen : σ

namespace Intake

variable {α : Type} [Scalar α]

section

variable (P q A b x : Tensor α) (bounds : RadiusBounds α) (tol : Tolerances α) (maxIter verbosity interval : Int)

def opened : Except Fault (Options × (m : Nat) × (n : Nat) × Solver α m n × List (Event α)) := do
  let o ← Options.accept maxIter verbosity interval
  let s ← solver P q A b x bounds tol
  return (o, s)

def reported : Called α ((m : Nat) × (n : Nat) × Report α m n) :=
  match opened P q A b x bounds tol maxIter verbosity interval with
  | .error cause => ⟨[], .error cause⟩
  | .ok (o, ⟨m, n, s, events⟩) =>
    let ran := s.run o
    ⟨events ++ ran.events, ran.result.map fun r => ⟨m, n, r⟩⟩

def minimized : Called α ((n : Nat) × Vec α n) :=
  match opened P q A b x bounds tol maxIter verbosity interval with
  | .error cause => ⟨[], .error cause⟩
  | .ok (o, ⟨_, n, s, events⟩) =>
    let ran := s.minimizer o
    ⟨events ++ ran.events, ran.result.map fun x => ⟨n, x⟩⟩

/-- A call for a report by a caller who may be listening. A listener is shown the snapshots one by one, and what it has
seen so far is all that it can change. -/
def call {σ : Type} (callback : Option (σ → Snapshot α → σ)) (seen : σ) : Except Fault (Answer α σ) :=
  let called := reported P q A b x bounds tol maxIter verbosity interval
  called.result.map fun ⟨m, n, report⟩ =>
    ⟨m, n, report, (Event.handed called.events).foldl (callback.getD fun seen _ => seen) seen⟩

end

end Intake

end ActiveSet
