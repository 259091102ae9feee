import ActiveSet.LinearProgram.Row

/-! Linear programs made smaller: rows that say no more than an interval become one, and an unknown that no row
holds back in the direction of its cost goes to the end of its interval.
-/

namespace ActiveSet

/-- The rows that are left, the values that the others leave to each unknown, and the cost. -/
structure Reduction (n : Nat) where
  rows : List (Row n)
  bounds : Vec Interval n
  cost : Vec Rat n

namespace Reduction

variable {n : Nat}

def unsettled (s : Reduction n) : List Nat :=
  (List.range n).filter fun j => (s.bounds j).value?.isNone

def extent (s : Reduction n) : Nat := s.rows.length + s.unsettled.length

/-- Judges the rows one after the other, each with the intervals that the ones before have left. -/
def sweep (judge : Row n → Vec Interval n → Verdict n) (s : Reduction n) : Option (Reduction n) := do
  let t ← s.rows.foldlM (fun t row =>
    let row := row.settle t.bounds
    match judge row t.bounds with
    | .contradiction => none
    | .absorbed bounds => some { t with bounds := bounds }
    | .kept => some { t with rows := row :: t.rows }) { s with rows := [] }
  return { t with rows := t.rows.reverse }

def idle : Rat := Fraction.rounded (mkRat 1 (Nat.pow 10 7))

/-- Where cost `c` takes an unknown that is in no row. None if that is nowhere. -/
def goal (v : Interval) (c : Rat) : Option Rat :=
  let last := if 0 < c then v.lower else v.upper
  if c = 0 || last.isNone && decide (Fraction.size c ≤ idle) then some v.anchor else last

def settle (s : Reduction n) (j : Nat) : Option (Reduction n) :=
  let v := s.bounds j
  let c := s.cost j
  let column := s.rows.map fun row => row.coefficients j
  let fix := fun x => ({ s with bounds := s.bounds.set j (Interval.point x) }).sweep Row.judgeShort
  if v.value?.isSome then some s
  else if column.all (· = 0) then (goal v c).bind fix
  else if column.all (0 ≤ ·) && decide (-idle ≤ c) then
    v.lower.elim (if idle < c then none else some s) fix
  else if column.all (· ≤ 0) && decide (c ≤ idle) then
    v.upper.elim (if c < -idle then none else some s) fix
  else some s

def round (s : Reduction n) : Option (Reduction n) := do
  let s ← s.sweep Row.judge
  (List.range n).foldlM settle s

/-- Rounds until one changes nothing; every other one takes a row or an unknown away. -/
def rounds : Nat → Reduction n → Option (Reduction n)
  | 0, s => some s
  | fuel + 1, s => do
    let t ← s.round
    if t.extent = s.extent then some t else rounds fuel t

/-- Rows that are parallel up to rounding become parallel. -/
def align (s : Reduction n) : Reduction n :=
  { s with rows := (s.rows.foldl (fun done row => done.foldl Row.alignTo row :: done) []).reverse }

def finish (s : Reduction n) : Option (Reduction n) := (rounds (s.extent + 1) s).map align

end Reduction

end ActiveSet
