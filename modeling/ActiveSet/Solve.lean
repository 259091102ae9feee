import ActiveSet.Progress

/-! A solve from its start to the reason why it stopped.

The loop goes on while nothing is decided: not solved, no ray, iterations left and the radius inside its
bounds. Each turn raises the iteration by one or finds a ray, so one more turn than the iteration limit
is enough. A linear system that cannot be solved ends the loop and is a status of its own; every other
fault is passed on.
-/

namespace ActiveSet

inductive Status where
  | optimal
  | unbounded
  | maxIter
  | radiusBound
  | numericalError
deriving DecidableEq, Repr

namespace Status

def all : List Status := [optimal, unbounded, maxIter, radiusBound, numericalError]

def value : Status → String
  | optimal => "optimal"
  | unbounded => "unbounded"
  | maxIter => "max_iter"
  | radiusBound => "radius_bound"
  | numericalError => "numerical_error"

def name : Status → String
  | optimal => "OPTIMAL"
  | unbounded => "UNBOUNDED"
  | maxIter => "MAX_ITER"
  | radiusBound => "RADIUS_BOUND"
  | numericalError => "NUMERICAL_ERROR"

def message : Status → String
  | optimal => "KKT conditions satisfied"
  | unbounded => "Unbounded ray found; set r_max to a finite value to get bounded solutions"
  | maxIter => "Maximum iterations reached"
  | radiusBound => "Iterate reached the radius bound"
  | numericalError => "Triangular solve failed"

def ofValue (text : String) : Except Fault Status :=
  match all.find? fun s => s.value = text with
  | some s => .ok s
  | none => .error .unknownStatus

end Status

/-- A fault of the linear algebra, which ends a solve but is no error of its caller. -/
def Fault.isNumerical : Fault → Bool
  | .singular _ | .illPosed => true
  | _ => false

structure Options where
  maxIter : Nat
  verbosity : Int
  /-- The number of iterations between two reports. -/
  interval : Nat

namespace Options

def accept (maxIter verbosity interval : Int) : Except Fault Options :=
  if maxIter < 0 then .error .iterationLimit
  else if interval ≤ 0 then .error .reportInterval
  else .ok ⟨maxIter.toNat, verbosity, interval.toNat⟩

def detailed (o : Options) : Bool := 2 ≤ o.verbosity

end Options

/-- A solve and the snapshots taken of it. -/
structure Watched (α : Type) (m n : Nat) where
  solver : Solver α m n
  history : List (Snapshot α)

structure Report (α : Type) (m n : Nat) where
  x : Vec α n
  objective : α
  status : Status
  iterations : Nat
  multipliers : Vec α m
  working : List Nat
  primalResidual : α
  dualResidual : Option α
  history : List (Snapshot α)

namespace Watched

variable {α : Type} [Scalar α] {m n : Nat}

def observe (o : Options) (header : Bool) (w : Watched α m n) : Outcome α (Watched α m n) Unit :=
  match w.solver.snapshot o.detailed with
  | .error cause => .fail w cause
  | .ok info =>
    let table : List (Event α) :=
      (if header then [.tableHeader o.detailed] else []) ++ [.tableRow info]
    ⟨{ w with history := w.history ++ [info] },
      .shown info :: if 0 < o.verbosity then table else [], .ok ()⟩

def undecided (o : Options) (w : Watched α m n) : Bool :=
  !w.solver.done && !w.solver.unbounded && w.solver.iteration ≤ o.maxIter && w.solver.withinRadius

def turn (o : Options) (w : Watched α m n) : Outcome α (Watched α m n) Unit :=
  (w.solver.iterate.within fun solver => { w with solver }).andThen fun w _ =>
    -- asked also after a ray, which leaves the count where it was
    if w.solver.iteration % o.interval = 0 then
      w.observe o (w.solver.iteration % (10 * o.interval) = 0)
    else .done w ()

def loop (o : Options) : Nat → Watched α m n → Outcome α (Watched α m n) Unit
  | 0, w => .done w ()
  | k + 1, w => if w.undecided o then (w.turn o).andThen fun w _ => loop o k w else .done w ()

def verdict (s : Solver α m n) : Status :=
  if s.unbounded then .unbounded
  else if !s.withinRadius then .radiusBound
  else if s.done then .optimal
  else .maxIter

def conclude (ran : Outcome α (Watched α m n) Unit) : Outcome α (Watched α m n) Status :=
  match ran.result with
  | .ok _ => ⟨ran.state, ran.events, .ok (verdict ran.state.solver)⟩
  | .error cause =>
    if cause.isNumerical then
      ⟨ran.state, ran.events ++ [.brokeDown ran.state.solver.iteration cause], .ok .numericalError⟩
    else ⟨ran.state, ran.events, .error cause⟩

def report (w : Watched α m n) (status : Status) : Report α m n where
  x := w.solver.x
  objective := w.solver.objective
  status := status
  iterations := w.solver.iteration
  multipliers := w.solver.multipliers
  working := w.solver.rows.working
  primalResidual := w.solver.infeasibility
  dualResidual := w.solver.residual
  history := w.history

end Watched

namespace Solver

variable {α : Type} [Scalar α] {m n : Nat}

def run (o : Options) (s : Solver α m n) : Outcome α (Watched α m n) (Report α m n) :=
  (Watched.observe o true ⟨s, []⟩).andThen fun w _ =>
    -- each turn is counted or decides the loop, so this many are enough
    (Watched.conclude (w.loop o (o.maxIter + 1))).andThen fun w status =>
      (w.observe o false).andThen fun w _ => .done w (w.report status)

/-- What is said of a report whose reader only sees the final point. -/
def remarks (o : Options) (r : Report α m n) : List (Event α) :=
  match r.status with
  | .maxIter => [.limitReached o.maxIter]
  | .unbounded => [.unboundedBelow]
  | _ => []

def minimizer (o : Options) (s : Solver α m n) : Outcome α (Watched α m n) (Vec α n) :=
  (s.run o).andThen fun w r => ⟨w, remarks o r, .ok r.x⟩

end Solver

end ActiveSet
