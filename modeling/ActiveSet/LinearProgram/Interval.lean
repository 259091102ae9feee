import ActiveSet.Fraction

/-! The values that rows with a single unknown leave to it. Ends are rounded to doubles, as the data are.
-/

namespace ActiveSet

/-- The numbers between two ends; a missing end is no bound. -/
structure Interval where
  lower : Option Rat
  upper : Option Rat

namespace Interval

def whole : Interval := ⟨none, none⟩

def point (x : Rat) : Interval := ⟨some x, some x⟩

instance : Zero Interval := ⟨point 0⟩

def value? (v : Interval) : Option Rat :=
  match v.lower, v.upper with
  | some l, some u => if l = u then some l else none
  | _, _ => none

/-- By how much a row may be missed and still be met. -/
def give : Rat := Fraction.rounded (mkRat 1 (Nat.pow 10 7))

def giveOf (a : Rat) : Rat := Fraction.rounded (give / Fraction.larger (Fraction.size a) 1)

def lowEnd (v : Interval) (a : Rat) : Option Rat := if 0 < a then v.lower else v.upper

def highEnd (v : Interval) (a : Rat) : Option Rat := if 0 < a then v.upper else v.lower

/-- A new upper end, unless the old one is no more than `give` above it. If it falls below the lower end
by no more than `give`, the lower end is all that is left. -/
def below (v : Interval) (give limit : Rat) : Option Interval :=
  let upper := v.upper.elim limit fun u => if limit < Fraction.rounded (u - give) then limit else u
  match v.lower with
  | none => some ⟨none, some upper⟩
  | some lower =>
    if upper < Fraction.rounded (lower - give) then none
    else some ⟨some lower, some (Fraction.larger upper lower)⟩

def above (v : Interval) (give limit : Rat) : Option Interval :=
  let lower := v.lower.elim limit fun l => if Fraction.rounded (l + give) < limit then limit else l
  match v.upper with
  | none => some ⟨some lower, none⟩
  | some upper =>
    if upper < Fraction.rounded (lower - give) then none
    else some ⟨some (Fraction.smaller lower upper), some upper⟩

/-- What `a * x ≤ rhs` leaves, for `a` other than zero. None if nothing is left. -/
def cut (v : Interval) (a rhs : Rat) : Option Interval :=
  let limit := Fraction.rounded (rhs / a)
  if (v.highEnd a).any fun x => decide (Fraction.rounded (a * x) ≤ Fraction.rounded (rhs + give)) then
    some v
  else if 0 < a then v.below (giveOf a) limit
  else v.above (giveOf a) limit

/-- The end of the smaller size, the lower one of two; zero if there is no end. -/
def anchor (v : Interval) : Rat :=
  match v.lower, v.upper with
  | some l, some u => if Fraction.size u < Fraction.size l then u else l
  | some l, none => l
  | none, some u => u
  | none, none => 0

end Interval

end ActiveSet
