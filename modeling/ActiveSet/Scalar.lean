/-! The arithmetic a solve runs on.

No law is assumed, so one body serves rounded numbers and exact ones. The tests below are phrased so
that a value which is not a number fails every comparison and an infinite one is caught by `a - a`.
-/

namespace ActiveSet

class Scalar (α : Type) extends Zero α, One α, Add α, Sub α, Mul α, Div α, Neg α, LT α, LE α,
    OfScientific α where
  decLt : DecidableLT α
  decLe : DecidableLE α
  sqrt : α → α
  /-- `sqrt (f * f + g * g)`, computed so that the squares do not leave the range. -/
  hypot : α → α → α
  /-- The factor that takes numbers of a size away from the lower end of the range before they are
  divided by each other; one where nothing would be lost. -/
  rescale : α → α

namespace Scalar

variable {α : Type} [Scalar α]

instance : DecidableLT α := decLt

instance : DecidableLE α := decLe

/-- Equal as numbers: both zeros are equal, and what is not a number equals nothing. -/
def same (a b : α) : Bool := decide (a ≤ b) && decide (b ≤ a)

def isNumber (a : α) : Bool := decide (a ≤ a)

/-- Neither infinite nor undefined: only then is `a - a` a number. -/
def isFinite (a : α) : Bool := decide (a - a ≤ a - a)

/-- Below zero, or a zero whose reciprocal is. -/
def isNegative (a : α) : Bool := decide (a < 0) || decide (1 / a < 0)

def abs (a : α) : α := if a < 0 then -a else a

/-- The second argument only where it is strictly larger. -/
def larger (a b : α) : α := if a < b then b else a

def smaller (a b : α) : α := if b < a then b else a

def sign (a : α) : α := if 0 < a then 1 else if a < 0 then -1 else a

end Scalar

end ActiveSet
