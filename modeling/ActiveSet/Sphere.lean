import ActiveSet.Fault
import ActiveSet.Sweep

/-! Where a line meets a sphere about the origin: the real roots of `‖x + t d‖² = radius²`.
-/

namespace ActiveSet

namespace Sphere

variable {α : Type} [Scalar α]

/-- The real roots of `t² + 2 h t + q`. The discriminant is formed after division by the scale of the
roots; the root of larger size comes first and the other is `q` divided by it. -/
def monicRoots (h q : α) : List α :=
  let scale := Scalar.larger (Scalar.abs h) (Scalar.sqrt (Scalar.abs q))
  if 0 < scale then
    let slope := h / scale
    let disc := slope * slope - q / scale / scale
    if disc < 0 then []
    else
      let width := scale * Scalar.sqrt disc
      let outer := if h < 0 then width - h else -(h + width)
      [outer, if Scalar.same outer 0 then 0 else q / outer]
  else [0, 0]

/-- The real roots of `a t² + b t + c`, zeros at either end of the coefficients taken off first. Refused
if the coefficients divided by the leading one are not finite. -/
def quadraticRoots (a b c : α) : Except Fault (List α) :=
  let zero := fun v => Scalar.same v 0
  if zero a then
    if zero b then .ok []
    else if zero c then .ok [0]
    else if Scalar.isFinite (c / b) then .ok [-(c / b)] else .error .illPosed
  else if zero c then
    if zero b then .ok [0, 0]
    else if Scalar.isFinite (b / a) then .ok [-(b / a), 0] else .error .illPosed
  else if Scalar.isFinite (b / a) && Scalar.isFinite (c / a) then
    .ok (monicRoots (0.5 * (b / a)) (c / a))
  else .error .illPosed

def square (radius : α) : Except Fault α :=
  if Scalar.isFinite radius && !Scalar.isFinite (radius * radius) then .error .overflow
  else .ok (radius * radius)

def crossings (n : Nat) (x d : Nat → α) (radius : α) : Except Fault (List α) := do
  let square ← square radius
  quadraticRoots (dot n d d) (2.0 * dot n d x) (dot n x x - square)

end Sphere

end ActiveSet
