import ActiveSet.Problem
import ActiveSet.Sphere
import ActiveSet.Tolerances
import ActiveSet.WorkingSet

/-! One solve under way, and one iteration of it.

An iteration finds a direction within the free ones, goes along it as far as the ignored rows and the
radius bounds allow, and then takes up the row that stopped it, or frees an artificial direction, or
checks optimality and releases the row with the most negative multiplier. A missing step length means
that nothing stops the step.
-/

namespace ActiveSet

/-- Bounds on the norm of the iterate. A negative lower bound or a missing upper one is no bound. -/
structure RadiusBounds (α : Type) where
  lower : α
  upper : Option α

structure Solver (α : Type) (m n : Nat) where
  problem : Problem α m n
  bounds : RadiusBounds α
  tolerances : Tolerances α
  x : Vec α n
  multipliers : Vec α m
  /-- The norm of the gradient along the free directions, once it has been checked. -/
  residual : Option α
  iteration : Nat
  done : Bool
  /-- A direction along which the problem is unbounded. -/
  ray : Option (Vec α n)
  rows : WorkingSet (Vec α n) α
  factor : ReducedFactor α n

inductive Search (α : Type) (n : Nat) where
  /-- The gradient vanishes along the free directions. -/
  | rest
  /-- To the minimum over the free directions. -/
  | newton (direction : Vec α n)
  /-- Along a direction without positive curvature. -/
  | ray (direction : Vec α n)

structure Step (α : Type) (n : Nat) where
  direction : Vec α n
  length : Option α
  /-- The position among the ignored rows of the one that limits the step. -/
  blocking : Option Nat

namespace Solver

variable {α : Type} [Scalar α] {m n : Nat}

def rule (s : Solver α m n) : CurvatureRule α := s.tolerances.rule s.problem.P

def gradient (s : Solver α m n) : Vec α n := s.problem.gradient s.x

def objective (s : Solver α m n) : α := s.problem.objective s.x

def infeasibility (s : Solver α m n) : α := s.problem.infeasibility s.x

def radius (s : Solver α m n) : α := norm n s.x

def unbounded (s : Solver α m n) : Bool := s.ray.isSome

def withinRadius (s : Solver α m n) : Bool :=
  let radius := s.radius
  let margin := s.tolerances.radiusMargin
  decide (s.bounds.lower + margin ≤ radius) &&
    match s.bounds.upper with
    | none => true
    | some upper => decide (radius ≤ upper - margin)

/-- The restriction is positive definite as far as it is factored. -/
def convex (s : Solver α m n) : Bool :=
  s.factor.size = 0 || decide (s.rule.indefinite ≤ s.factor.d (s.factor.size - 1))

/-- The minimum over the free directions, from the gradient along them. -/
def newtonDirection (F : ReducedFactor α n) (along : Nat → α) : Except Fault (Vec α n) := do
  let u ← Triangular.solveT F.size F.width F.u fun t => along (F.width - 1 - t)
  let w ← Triangular.solve F.size F.size F.u fun t => u t / F.d t
  let d := F.expand w
  return Vec.ofFn fun i => -d i

/-- The direction of the last curvature, turned downhill. -/
def rayDirection (F : ReducedFactor α n) (gradient : Vec α n) : Except Fault (Vec α n) := do
  let w ← Triangular.solve F.size F.size F.u fun t => if t = F.size - 1 then 1 else 0
  if F.width ≠ F.size then throw .sizeMismatch
  let d := F.expand w
  return if 0 ≤ dot n d gradient then Vec.ofFn fun i => -d i else d

def search (s : Solver α m n) : Except Fault (Search α n) :=
  let F := s.factor
  let g := s.gradient
  if s.convex then
    let along : Vec α F.width := Vec.ofFn (F.project g)
    if norm F.width along ≤ s.tolerances.projectedGradient then .ok .rest
    else (newtonDirection F along).map .newton
  else (rayDirection F g).map .ray

/-- How far each ignored row lets the direction go; a row that is not approached sets no limit. -/
def ratios (s : Solver α m n) (d : Vec α n) : List (Option α) :=
  List.zipWith (fun (a : Vec α n) b =>
    let rate := dot n a d
    -- the distance to the row: one that is violated is overtaken by as much as it is missed
    if s.tolerances.blocking < rate then some (Scalar.abs (b - dot n a s.x) / rate) else none)
    s.rows.ignoredRows s.rows.ignoredRhs

/-- The smaller of two limits. A limit that is not a number stays. -/
def tighter : Option α → Option α → Option α
  | a, none => a
  | none, b => b
  | some a, some b => if a ≤ b || !Scalar.isNumber a then some a else some b

/-- The smallest limit and the last position that attains it. There is none if the smallest is not
finite. -/
def tightest (limits : List (Option α)) : Option (α × Nat) :=
  match limits.foldl tighter none with
  | none => none
  | some t =>
    if Scalar.isFinite t then
      let attained := fun i => (limits[i]?.join).any fun v => Scalar.same v t
      ((List.range limits.length).reverse.find? attained).map fun i => (t, i)
    else none

def radiusLimit (s : Solver α m n) (d : Vec α n) : Except Fault (Option α) := do
  let outer ← match s.bounds.upper with
    | some upper =>
      if Scalar.isFinite upper then Sphere.crossings n s.x d upper else pure []
    | none => pure []
  let inner ←
    if 0 < s.bounds.lower then Sphere.crossings n s.x d s.bounds.lower else pure []
  let ahead := (outer ++ inner).filter fun t => decide (0 ≤ t) && Scalar.isFinite t
  return ahead.foldl (fun best t => tighter best (some t)) none

/-- The shorter of two step lengths, the first if they are equal. -/
def shorter : Option α → Option α → Option α
  | a, none => a
  | none, b => b
  | some a, some b => some (Scalar.smaller a b)

def bounded (s : Solver α m n) (d : Vec α n) (most : Option α) : Except Fault (Step α n) :=
  let rowLimit := tightest (s.ratios d)
  (s.radiusLimit d).map fun radiusLimit =>
    let length := shorter (shorter most (rowLimit.map Prod.fst)) radiusLimit
    { direction := d
      length := length
      blocking := rowLimit.bind fun limit =>
        if length.any fun t => Scalar.same limit.1 t then some limit.2 else none }

def step (s : Solver α m n) : Except Fault (Step α n) :=
  match s.search with
  | .error cause => .error cause
  | .ok .rest => .ok ⟨0, some 0, none⟩
  | .ok (.newton d) => s.bounded d (some 1)
  | .ok (.ray d) => s.bounded d none

def add (s : Solver α m n) (idx : Int) : Outcome α (Solver α m n) Unit :=
  match (Position.resolve? s.rows.ignored.length idx).bind fun i => s.rows.ignored[i]? with
  | none => .fail s .outOfRange
  | some row =>
    -- the factorization is asked first, so the lists stay as they are if it refuses
    ((s.factor.add s.rule s.problem.P (s.problem.A.row row)).within fun factor => { s with factor })
      |>.andThen fun s _ =>
        ((s.rows.activate idx).within fun rows => { s with rows })
          |>.andThen fun s row => (Outcome.done s ()).reporting (.rowAdded s.iteration row)

/-- Frees a direction of the factorization: an artificial one, or that of working column `idx`. -/
def free (s : Solver α m n) (idx : Option Int) : Outcome α (Solver α m n) Unit :=
  (s.factor.remove s.rule s.problem.P idx).within fun factor => { s with factor }

def remove (s : Solver α m n) (idx : Int) : Outcome α (Solver α m n) Unit :=
  ((s.rows.release idx).within fun rows => { s with rows }).andThen fun s row =>
    -- the row has left the lists by now, whatever the factorization says
    (s.free (some idx)).andThen fun s _ =>
      (Outcome.done s ()).reporting (.rowRemoved s.iteration row)

def columnMultipliers (s : Solver α m n) : Except Fault (Vec α s.factor.basis.size) :=
  let F := s.factor.basis
  (Triangular.solve F.size F.size F.r (F.q.applyT s.gradient)).map fun w => Vec.ofFn fun i => -w i

/-- One multiplier for each row, zero outside the working rows. A single one is given to all of them. -/
def spread (working : List Nat) (k : Nat) (lam : Nat → α) : Except Fault (Vec α m) :=
  if working.length = k ∨ k = 1 then
    .ok (Vec.ofFn fun row =>
      match working.idxOf? row with
      | some i => lam (if k = 1 then 0 else i)
      | none => 0)
  else .error .sizeMismatch

/-- The first smallest of `f 0, …, f (k - 1)`, or the first that is not a number. -/
def leastAt (k : Nat) (f : Nat → α) : Nat :=
  ascend k (fun best i => if Scalar.isNumber (f best) && !decide (f best ≤ f i) then i else best) 0

/-- Computes the multipliers and decides: solved, or the working position to release, or neither while
the gradient along the free directions is too large. -/
def check (s : Solver α m n) : Outcome α (Solver α m n) (Option Nat) :=
  match s.columnMultipliers with
  | .error cause => .fail s cause
  | .ok lam =>
    let k := s.factor.basis.size
    match spread s.rows.working k lam with
    -- the old multipliers are cleared before the new ones are written
    | .error cause => .fail { s with multipliers := 0 } cause
    | .ok multipliers =>
      let residual := norm s.factor.width (s.factor.project s.gradient)
      let t := { s with multipliers, residual := some residual, done := false }
      if s.tolerances.projectedGradient < residual then
        (Outcome.done t none).reporting (.refining s.iteration residual)
      else if (List.range k).all fun i => decide (-s.tolerances.multiplier ≤ lam i) then
        .done { t with done := true } none
      else .done t (some (leastAt k lam))

def settle (s : Solver α m n) : Outcome α (Solver α m n) Unit :=
  if 0 < s.factor.artificial then s.free none
  else
    s.check.andThen fun s found =>
      match found with
      | some idx => s.remove idx
      | none => .done s ()

def iterate (s : Solver α m n) : Outcome α (Solver α m n) Unit :=
  match s.step with
  | .error cause => .fail s cause
  | .ok p =>
    match p.length with
    -- such an iteration does not count
    | none => (Outcome.done { s with ray := some p.direction } ()).reporting .rayFound
    | some t =>
      let moved := { s with x := s.x.along t p.direction }
      let taken : Outcome α (Solver α m n) Unit :=
        match p.blocking with
        | some i => moved.add i
        | none => .done moved ()
      taken.andThen fun s _ =>
        let settled : Outcome α (Solver α m n) Unit :=
          if (p.blocking.isNone || s.factor.size = 0) && s.withinRadius then s.settle else .done s ()
        settled.andThen fun s _ => .done { s with iteration := s.iteration + 1 } ()

def iterates : Nat → Solver α m n → Outcome α (Solver α m n) Unit
  | 0, s => .done s ()
  | k + 1, s => s.iterate.andThen fun s _ => iterates k s

end Solver

end ActiveSet
