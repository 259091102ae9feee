import ActiveSet.Exact
import ActiveSet.Call
import ActiveSet.Intake
import ActiveSet.Journal
import ActiveSet.LinearProgram
import ActiveSet.Optimality
import ActiveSet.Proofs.Unbounded
import ActiveSet.Sample
import ActiveSet.Solve
import ActiveSet.Tensor.Rotation
import ActiveSet.Proofs.Definite
import ActiveSet.Proofs.Crossings
import ActiveSet.Proofs.Refusals
import ActiveSet.Proofs.Cycling
import ActiveSet.Proofs.Violation
import ActiveSet.Proofs.Sizes
import ActiveSet.Proofs.Multipliers
import ActiveSet.Proofs.Atomicity
import ActiveSet.Proofs.Shell
import ActiveSet.Proofs.SecondOrder
import ActiveSet.Proofs.Moves
import ActiveSet.Proofs.Turns
import ActiveSet.Proofs.Agreement
import ActiveSet.Proofs.Snapshots
import ActiveSet.Proofs.Directions
import ActiveSet.Proofs.StepLength
import ActiveSet.Proofs.Observation
import ActiveSet.Proofs.Rise
import ActiveSet.Proofs.Release
import ActiveSet.Proofs.Decisions
import ActiveSet.Proofs.Recession
import ActiveSet.Proofs.Sufficiency
import ActiveSet.Proofs.Recompute
import ActiveSet.Proofs.RoundTrip
import ActiveSet.Proofs.Truncation
import ActiveSet.Proofs.Triangle
import ActiveSet.Proofs.StartingPoint
import ActiveSet.Proofs.Journal
import ActiveSet.Proofs.Sample
import ActiveSet.Proofs.Table
