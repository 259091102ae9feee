import ActiveSet.LinearProgram.Interval
import ActiveSet.Vec

/-! Rows of a linear program, and what each tells of its unknowns when their values are confined to intervals.
-/

namespace ActiveSet

/-- A row `Σ coefficients j * x j ≤ rhs`. -/
structure Row (n : Nat) where
  coefficients : Vec Rat n
  rhs : Rat

/-- What becomes of a row: no value is left, the intervals say all of it, or it stays. -/
inductive Verdict (n : Nat) where
  | contradiction
  | absorbed (bounds : Vec Interval n)
  | kept

namespace Row

variable {n : Nat}

def support (row : Row n) : List Nat := (List.range n).filter fun j => row.coefficients j ≠ 0

def size (row : Row n) : Rat :=
  ascend n (fun most j => Fraction.larger most (Fraction.size (row.coefficients j))) 0

def room (row : Row n) (x : Nat → Rat) : Rat :=
  ascend n (fun left j => left - row.coefficients j * x j) row.rhs

def settle (row : Row n) (bounds : Vec Interval n) : Row n :=
  { coefficients := Vec.ofFn fun j => if (bounds j).value?.isSome then 0 else row.coefficients j
    rhs := row.room fun j => (bounds j).value?.getD 0 }

def total (row : Row n) (ends : Nat → Rat → Option Rat) : Option Rat :=
  row.support.foldlM (fun sum j =>
    let a := row.coefficients j
    (ends j a).map fun x => sum + a * x) 0

def pressed (row : Row n) (bounds : Vec Interval n) : Vec Interval n :=
  Vec.ofFn fun j =>
    let a := row.coefficients j
    if a = 0 then bounds j else ((bounds j).lowEnd a).elim (bounds j) Interval.point

def judgeShort (row : Row n) (bounds : Vec Interval n) : Verdict n :=
  match row.support with
  | [] => if row.rhs < -Interval.give then .contradiction else .absorbed bounds
  | [j] =>
    match (bounds j).cut (row.coefficients j) row.rhs with
    | some v => .absorbed (bounds.set j v)
    | none => .contradiction
  | _ => .kept

/-- Rows that the intervals contradict or imply, and those that leave nothing but one end of each, are
absorbed too. -/
def judge (row : Row n) (bounds : Vec Interval n) : Verdict n :=
  match row.judgeShort bounds with
  | .kept =>
    let low := row.total fun j => (bounds j).lowEnd
    let high := row.total fun j => (bounds j).highEnd
    let most := Fraction.rounded (row.rhs + Interval.give)
    if low.any fun t => decide (most < t) then .contradiction
    else if high.any fun t => decide (t ≤ most) then .absorbed bounds
    else if low.any fun t => decide (Fraction.rounded (row.rhs - Interval.give) ≤ t) then
      .absorbed (row.pressed bounds)
    else .kept
  | verdict => verdict

/-- How far a coefficient may be from a multiple of another and still be taken for it. -/
def looseness (a : Rat) : Rat :=
  Fraction.smaller (Fraction.rounded (mkRat 1 (Nat.pow 10 9))) (Fraction.size a / 32768)

def leader (row : Row n) : Nat :=
  ascend n (fun best j =>
    if Fraction.size (row.coefficients best) < Fraction.size (row.coefficients j) then j else best) 0

/-- The row with the direction of the model, if its own is the same or the opposite up to rounding. -/
def alignTo (row model : Row n) : Row n :=
  let j := model.leader
  let s := row.coefficients j / model.coefficients j
  let aligned : Vec Rat n := Vec.ofFn fun k => s * model.coefficients k
  if (List.range n).all fun k =>
      decide (Fraction.size (row.coefficients k - aligned k) ≤ looseness (row.coefficients k)) then
    { row with coefficients := aligned }
  else row

def ofInterval (j : Nat) (v : Interval) : List (Row n) :=
  let unit := fun a : Rat => (Vec.ofFn fun k => if k = j then a else 0 : Vec Rat n)
  (v.upper.map fun u => (⟨unit 1, u⟩ : Row n)).toList ++
    (v.lower.map fun l => (⟨unit (-1), -l⟩ : Row n)).toList

end Row

end ActiveSet
