import ActiveSet.Mat

/-! Elementary reflectors `I - tau v vᵀ` and the full orthogonal factorization they give.

A reflector leaves the first `top` coordinates alone. If the entries below the top one already vanish
it is the identity and the top entry keeps its sign; otherwise the top entry becomes the negative of
its sign times the length of the column. A very short column is lengthened before its entries are
divided by each other.
-/

namespace ActiveSet

structure Reflector (α : Type) (n : Nat) where
  tau : α
  v : Vec α n
  /-- What the top entry becomes. -/
  beta : α

namespace Reflector

variable {α : Type} [Scalar α] {n : Nat}

/-- The reflector that clears `x` below entry `top`. -/
def clearing (x : Vec α n) (top : Nat) : Reflector α n :=
  let alpha := x top
  let rest := length (n - (top + 1)) fun t => x (top + 1 + t)
  if Scalar.same rest 0 then ⟨0, Vec.ofFn fun i => if i = top then 1 else 0, alpha⟩
  else
    let factor := Scalar.rescale (Scalar.hypot alpha rest)
    let alpha := factor * alpha
    let whole := Scalar.hypot alpha (length (n - (top + 1)) fun t => factor * x (top + 1 + t))
    let beta := if Scalar.isNegative alpha then whole else -whole
    ⟨(beta - alpha) / beta,
      Vec.ofFn fun i => if i = top then 1 else if top < i then factor * x i / (alpha - beta) else 0,
      beta / factor⟩

def entry (h : Reflector α n) (i j : Nat) : α :=
  (if i = j then 1 else 0) - h.tau * h.v i * h.v j

def applyLeft {c : Nat} (h : Reflector α n) (M : Mat α n c) : Mat α n c :=
  Mat.ofFn fun i j => M i j - h.tau * h.v i * dot n h.v fun k => M k j

def applyRight (h : Reflector α n) (M : Mat α n n) : Mat α n n :=
  Mat.ofFn fun i j => M i j - dot n (M i) h.v * h.tau * h.v j

end Reflector

namespace Mat

variable {α : Type} [Scalar α] {n k : Nat}

/-- One column of the factorization: `(Q, R)` becomes `(Q H, H R)`. -/
def reflectColumn (s : Mat α n n × Mat α n k) (j : Nat) : Mat α n n × Mat α n k :=
  let h := Reflector.clearing (s.2.col j) j
  let turned := h.applyLeft s.2
  (h.applyRight s.1,
    ofFn fun i l => if l < j then s.2 i l else if l = j then
      (if i = j then h.beta else if j < i then 0 else s.2 i l) else turned i l)

/-- `A = Q R` with `Q` square and orthogonal and `R` zero below its diagonal. -/
def orthogonalize (A : Mat α n k) : Mat α n n × Mat α n k := ascend k reflectColumn (identity, A)

end Mat

end ActiveSet
