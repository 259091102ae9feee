import ActiveSet.Decimal

/-! Doubles as the fractions they stand for, and the double nearest to a fraction.
-/

namespace ActiveSet

namespace Fraction

def ofDouble? (x : Float) : Option Rat :=
  match Decimal.read x with
  | .finite negative num den => some (mkRat (if negative then -num else num) den)
  | _ => none

def inUnits (num den : Nat) (e : Int) : Nat :=
  if 0 ≤ e then Decimal.roundDiv num (den <<< e.toNat)
  else Decimal.roundDiv (num <<< (-e).toNat) den

/-- The power of two in whose units the double nearest to `num / den` counts: as many units as have 53
binary digits, none below the smallest double. -/
def unitOf (num den : Nat) : Int :=
  let guess : Int := max ((num.log2 : Int) - den.log2 - 53) (-1074)
  if 1 <<< 53 < inUnits num den guess then guess + 1 else guess

def nearest (num den : Nat) : Float :=
  let e := unitOf num den
  Float.scaleB (Float.ofNat (inUnits num den e)) e

def toDouble (q : Rat) : Float :=
  if q < 0 then -nearest q.num.natAbs q.den else nearest q.num.natAbs q.den

def rounded (q : Rat) : Rat :=
  let e := unitOf q.num.natAbs q.den
  let units := inUnits q.num.natAbs q.den e
  let value : Rat := if 0 ≤ e then (units <<< e.toNat : Nat) else mkRat units (1 <<< (-e).toNat)
  if q < 0 then -value else value

def size (q : Rat) : Rat := if q < 0 then -q else q

def smaller (p q : Rat) : Rat := if p ≤ q then p else q

def larger (p q : Rat) : Rat := if p ≤ q then q else p

end Fraction

end ActiveSet
