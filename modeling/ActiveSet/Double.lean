import ActiveSet.Scalar

/-! Double precision numbers as scalars.
-/

namespace ActiveSet

namespace Double

def infinity : Float := 1.0 / 0.0

def undefined : Float := 0.0 / 0.0

/-- The larger leg is taken out of the root, so that neither square leaves the range. One infinite leg
makes the result infinite whatever the other is. -/
def hypot (f g : Float) : Float :=
  let a := f.abs
  let b := g.abs
  if a == infinity || b == infinity then infinity
  else
    let hi := if a < b then b else a
    let lo := if a < b then a else b
    if hi == 0.0 then lo else hi * Float.sqrt (1.0 + (lo / hi) * (lo / hi))

/-- Sizes below `2 ^ -969` are multiplied by its reciprocal. -/
def rescale (size : Float) : Float :=
  let least := Float.scaleB 1.0 (-969)
  if size.abs < least then 1.0 / least else 1.0

end Double

instance : Scalar Float where
  decLt := inferInstance
  decLe := inferInstance
  sqrt := Float.sqrt
  hypot := Double.hypot
  rescale := Double.rescale

end ActiveSet
