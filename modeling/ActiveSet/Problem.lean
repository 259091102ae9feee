import ActiveSet.Mat

/-! A quadratic program: minimize `1/2 xᵀ P x + qᵀ x` subject to `A x ≤ b`.
-/

namespace ActiveSet

structure Problem (α : Type) (m n : Nat) where
  P : Mat α n n
  q : Vec α n
  A : Mat α m n
  b : Vec α m

namespace Problem

variable {α : Type} [Scalar α] {m n : Nat}

def gradient (p : Problem α m n) (x : Vec α n) : Vec α n :=
  let slope := p.P.apply x
  Vec.ofFn fun i => slope i + p.q i

def objective (p : Problem α m n) (x : Vec α n) : α :=
  dot n (fun i => 0.5 * x i) (p.P.apply x) + dot n p.q x

def excess (p : Problem α m n) (x : Vec α n) (i : Nat) : α := dot n (p.A i) x - p.b i

def infeasibility (p : Problem α m n) (x : Vec α n) : α :=
  if m = 0 then 0 else Scalar.larger (maximum (m - 1) (p.excess x)) 0

end Problem

/-- Equal up to rounding: within `1e-12`, or within `1e-10` of the size of the second. -/
def nearlySame {α : Type} [Scalar α] (a b : α) : Bool :=
  Scalar.same a b ||
    (Scalar.isFinite a && Scalar.isFinite b &&
      decide (Scalar.abs (a - b) ≤ 1e-12 + 1e-10 * Scalar.abs b))

def Mat.isSymmetric {α : Type} [Scalar α] {n : Nat} (P : Mat α n n) : Bool :=
  (List.range n).all fun i => (List.range n).all fun j => nearlySame (P i j) (P j i)

end ActiveSet
