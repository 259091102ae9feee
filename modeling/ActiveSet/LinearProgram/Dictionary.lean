import ActiveSet.Fraction
import ActiveSet.Vec

/-! Dictionaries of the simplex method: some variables, the basic ones, as functions of the others.

All numbers are fractions, so that nothing is lost however often variables are exchanged and however far
apart the sizes of the data are. Entering and leaving variables are the ones with the smallest number, so
that no dictionary comes back.
-/

namespace ActiveSet

/-- The basic variables as functions of the others: `basic i = rhs i - Σ table i j * other j`, and the
cost up to a constant as `Σ cost j * other j`. -/
structure Dictionary (r c : Nat) where
  basic : Vec Nat r
  others : Vec Nat c
  table : Vec (Vec Rat c) r
  rhs : Vec Rat r
  cost : Vec Rat c

namespace Dictionary

variable {r c : Nat}

def pivot (D : Dictionary r c) (i j : Nat) : Dictionary r c :=
  let p := D.table i j
  let line : Vec Rat c := Vec.ofFn fun l => if l = j then 1 / p else D.table i l / p
  let level := D.rhs i / p
  { basic := D.basic.set i (D.others j)
    others := D.others.set j (D.basic i)
    table := Vec.ofFn fun k =>
      if k = i then line
      else
        let row := D.table k
        let a := row j
        Vec.ofFn fun l => (if l = j then 0 else row l) - a * line l
    rhs := Vec.ofFn fun k => if k = i then level else D.rhs k - D.table k j * level
    cost := Vec.ofFn fun l => (if l = j then 0 else D.cost l) - D.cost j * line l }

def least (size : Nat) (number : Nat → Nat) (pass : Nat → Bool) : Option Nat :=
  ((List.range size).filter pass).foldl (fun best k =>
    match best with
    | none => some k
    | some b => if number k < number b then some k else some b) none

/-- A variable whose growth lowers the cost. Variables numbered below `first` never enter. -/
def entering (first : Nat) (D : Dictionary r c) : Option Nat :=
  least c D.others fun j => decide (D.cost j < 0) && decide (first ≤ D.others j)

/-- The basic variable that reaches zero first as variable `j` grows. -/
def leaving (D : Dictionary r c) (j : Nat) : Option Nat :=
  let falls := (List.range r).filter fun i => decide (0 < D.table i j)
  let ratio := fun i => D.rhs i / D.table i j
  match falls with
  | [] => none
  | start :: rest =>
    let lowest := rest.foldl (fun best i => Fraction.smaller best (ratio i)) (ratio start)
    least r D.basic fun i => decide (0 < D.table i j) && decide (ratio i ≤ lowest)

/-- Pivots until no variable lowers the cost. None if the cost has no minimum or the fuel runs out. -/
def minimize (first : Nat) : Nat → Dictionary r c → Option (Dictionary r c)
  | 0, _ => none
  | fuel + 1, D =>
    match D.entering first with
    | none => some D
    | some j =>
      match D.leaving j with
      | none => none
      | some i => minimize first fuel (D.pivot i j)

def value (D : Dictionary r c) (number : Nat) : Rat :=
  match (List.range r).find? fun i => D.basic i = number with
  | some i => D.rhs i
  | none => 0

def withCost (D : Dictionary r c) (cost : Nat → Rat) : Dictionary r c :=
  { D with
    cost := Vec.ofFn fun l =>
      ascend r (fun left i => left - cost (D.basic i) * D.table i l) (cost (D.others l)) }

/-- Takes the variable numbered below `first` out of basic place `i`, if one is there; from then on it
stays at the value that it has. -/
def release (first : Nat) (D : Dictionary r c) (i : Nat) : Dictionary r c :=
  match (List.range c).find? fun j => decide (D.table i j ≠ 0) && decide (first ≤ D.others j) with
  | some j => if D.basic i < first then ({ D with rhs := D.rhs.set i 0 }).pivot i j else D
  | none => D

end Dictionary

end ActiveSet
