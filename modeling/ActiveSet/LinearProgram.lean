import ActiveSet.Fault
import ActiveSet.LinearProgram.Dictionary
import ActiveSet.LinearProgram.Reduction
import ActiveSet.Tensor

/-! Linear programs: minimize `cᵀ x` subject to `A x ≤ b`, solved in fractions.

What the reduction leaves is solved by the simplex method, from the ends of the intervals on: each step is
a difference of two nonnegative variables, and each row that is no bound has an excess, another variable,
by which it is missed. A first run makes the sum of the excesses as small as can be, and a second run
minimizes the cost. Rows may be missed by a little, since the data are rounded.
-/

namespace ActiveSet

structure LinearProgram (n : Nat) where
  rows : List (Row n)
  cost : Vec Rat n

namespace LinearProgram

variable {n : Nat}

def coefficientLimit : Rat := (Nat.pow 10 15 : Nat)

def coefficientFloor : Rat := Fraction.rounded (mkRat 1 (Nat.pow 10 9))

def infinite : Rat := (Nat.pow 10 20 : Nat)

def moderate (p : LinearProgram n) : Bool :=
  (p.rows.all fun row => decide (-infinite < row.rhs) && decide (row.size ≤ coefficientLimit)) &&
    (List.range n).all fun j => decide (Fraction.size (p.cost j) < infinite)

/-- The program without the rows whose right-hand side is infinite and without small coefficients. -/
def cleared (p : LinearProgram n) : LinearProgram n :=
  let clear := fun row : Row n =>
    { row with
      coefficients := Vec.ofFn fun j =>
        let a := row.coefficients j
        if coefficientFloor < Fraction.size a then a else 0 }
  { p with rows := (p.rows.filter fun row => decide (row.rhs < infinite)).map clear }

def reduced (p : LinearProgram n) : Option (Reduction n) :=
  Reduction.finish ⟨p.rows, Vec.ofFn fun _ => Interval.whole, p.cost⟩

/-- Rows seen from the point `x`. The first `w` rows have an excess, numbered like the row; then come the
two halves of the step in each unknown and the slacks. A right-hand side that is missed by no more than
`give` is met. -/
def initial (w : Nat) (rows : Array (Row n)) (x : Nat → Rat) (give : Rat) :
    Dictionary rows.size (2 * n + w) :=
  let row := fun i => rows.getD i ⟨0, 0⟩
  { basic := Vec.ofFn fun i => w + 2 * n + i
    others := Vec.ofFn fun j => if j < 2 * n then w + j else j - 2 * n
    table := Vec.ofFn fun i => Vec.ofFn fun j =>
      if j < n then (row i).coefficients j
      else if j < 2 * n then -(row i).coefficients (j - n)
      else if j - 2 * n = i then -1 else 0
    rhs := Vec.ofFn fun i =>
      let room := (row i).room x
      if room < -give then room else Fraction.larger room 0
    cost := 0 }

/-- A dictionary in which every right-hand side is nonnegative and the sum of the excesses is as small as
can be. -/
def relaxed {r : Nat} (w fuel : Nat) (D : Dictionary r (2 * n + w)) :
    Option (Dictionary r (2 * n + w)) :=
  let D := ascend w (fun D i => if D.rhs i < 0 then D.pivot i (2 * n + i) else D) D
  (D.withCost fun number => if number < w then 1 else 0).minimize 0 fuel

def reached {r : Nat} (w : Nat) (D : Dictionary r (2 * n + w)) (x : Nat → Rat) : Vec Rat n :=
  Vec.ofFn fun j => x j + (D.value (w + j) - D.value (w + n + j))

def splitCost (w n : Nat) (cost : Nat → Rat) (number : Nat) : Rat :=
  if number < w then 0
  else if number < w + n then cost (number - w)
  else if number < w + 2 * n then -cost (number - w - n)
  else 0

/-- A point that minimizes the cost of a cleared program. None if there is no point or no minimum. -/
def minimize (fuel : Nat) (p : LinearProgram n) : Option (Vec Rat n) := do
  let s ← p.reduced
  let w := s.rows.length
  let start : Vec Rat n := Vec.ofFn fun j => (s.bounds j).anchor
  let rows := (s.rows ++ s.unsettled.flatMap fun j => Row.ofInterval j (s.bounds j)).toArray
  let cost := fun j => if (s.bounds j).value?.isSome then 0 else s.cost j
  let missed := fun (x : Vec Rat n) => s.rows.any fun row => decide (row.room x < -Interval.give)
  let D ← relaxed w fuel (initial w rows start (if missed start then 0 else Interval.give))
  if missed (reached w D start) then none
  let D := ascend rows.size (Dictionary.release w) D
  let D ← (D.withCost (splitCost w n cost)).minimize w fuel
  return reached w D start

def solve (fuel : Nat) (p : LinearProgram n) : Option (Vec Rat n) :=
  if p.moderate then p.cleared.minimize fuel else none

end LinearProgram

namespace Intake

def pivotLimit : Nat := 10000

def fractions (n : Nat) (entries : List Float) : Except Fault (Vec Rat n) :=
  match (entries.mapM Fraction.ofDouble?).bind (Vec.ofList? n) with
  | some v => .ok v
  | none => .error .undefinedData

/-- A point with `A x ≤ b - margin`, the cheapest if a cost is given. -/
def feasiblePoint (A b : Tensor Float) (cost : Option (Tensor Float)) (margin : Float) :
    Except Fault (List Float) := do
  let [m, n] := A.shape | throw .rowsShape
  if b.size ≠ m then throw .rowsShape
  let cost := (cost.map Tensor.flatten).getD (List.replicate n 0)
  if cost.length ≠ n then throw .costShape
  if n = 0 then throw .undefinedData
  let rhs ← fractions m (b.flatten.map (· - margin))
  let rows ← (List.range m).mapM fun i => do
    let coefficients ← fractions n ((A.slab i [n]).flatten)
    return (⟨coefficients, rhs i⟩ : Row n)
  let cost ← fractions n cost
  match LinearProgram.solve pivotLimit ⟨rows, cost⟩ with
  | some x => return x.toList.map Fraction.toDouble
  | none => throw .noPoint

variable {α : Type} [Scalar α]

def satisfies (A b : Tensor α) (x : List α) (slack : α) : Bool :=
  let A := A.toMat b.size x.length
  (List.range b.size).all fun i =>
    decide (dot x.length (A i) (fun j => x.getD j 0) - b.entries.getD i 0 ≤ slack)

end Intake

end ActiveSet
