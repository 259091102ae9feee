import ActiveSet.Cholesky
import ActiveSet.OrthogonalFactor
import ActiveSet.Triangular

/-! The factorization `Uᵀ diag(D) U` of the Hessian restricted to the free directions.

The columns of `Q` fall into three groups: working, artificial and free. The factor is that of `P` in the
free directions taken in reverse, so that the direction which enters or leaves is the last one and only
the last row and column of `U` change. Artificial directions are those on which the restriction was not
positive definite at the start; they are set free one at a time. At most the last entry of `D` may fail
to be positive.
-/

namespace ActiveSet

structure CurvatureRule (α : Type) where
  /-- Smallest pivot, and the threshold of positive definiteness. -/
  indefinite : α
  /-- At or below this dropped curvature the last column of `U` is solved for anew. -/
  recompute : α
  /-- Curvatures up to this one count as zero. -/
  flat : α

structure ReducedFactor (α : Type) (n : Nat) where
  basis : OrthogonalFactor α n
  /-- The number of free directions that are factored. -/
  size : Nat
  artificial : Nat
  u : Mat α n n
  d : Vec α n

namespace ReducedFactor

variable {α : Type} [Scalar α] {n : Nat}

def offset (F : ReducedFactor α n) : Nat := F.basis.size + F.artificial

def width (F : ReducedFactor α n) : Nat := n - F.offset

def z (F : ReducedFactor α n) (i j : Nat) : α := F.basis.q i (F.offset + j)

def project (F : ReducedFactor α n) (g : Vec α n) (j : Nat) : α := dot n (fun i => F.z i j) g

/-- The combination of the free directions, taken in reverse, with coefficients `w`. -/
def expand (F : ReducedFactor α n) (w : Nat → α) : Vec α n :=
  Vec.ofFn fun i => sum F.width fun j => F.z i j * w (F.width - 1 - j)

def last? (F : ReducedFactor α n) : Option α := if F.size = 0 then none else some (F.d (F.size - 1))

/-- The restriction to all `k` directions past the working ones, in reverse. -/
def restriction (P : Mat α n n) (basis : OrthogonalFactor α n) : Mat α basis.nullity basis.nullity :=
  let direction := fun j => basis.q.col (n - 1 - j)
  Mat.symmetrize (Mat.ofFn fun i j => dot n (P.applyT (direction i)) (direction j))

/-- The columns of `Q` with those past the working ones put in the order of the pivots: first the
directions after the cut, then the factored ones from the last pivot to the first. -/
def arrange (basis : OrthogonalFactor α n) (s : Cholesky α basis.nullity) : Mat α n n :=
  Mat.ofFn fun i j =>
    if j < basis.size then basis.q i j
    else
      let t := j - basis.size
      let held := basis.nullity - s.rank
      basis.q i (n - 1 - s.order (if t < held then s.rank + t else n - 1 - j))

/-- Factors the restriction as far as it is positive definite; what is past the cut is artificial. -/
def ofFactor (rule : CurvatureRule α) (P : Mat α n n) (basis : OrthogonalFactor α n) :
    ReducedFactor α n :=
  let s := Cholesky.ofMat (restriction P basis) rule.indefinite rule.flat
  { basis := { basis with q := arrange basis s }
    size := s.rank
    artificial := basis.nullity - s.rank
    u := Mat.ofFn fun i j => s.factor i j
    d := Vec.ofFn fun _ => 1 }

def initialEvents (F : ReducedFactor α n) : List (Event α) :=
  if F.artificial = 0 then [] else [.artificialLeft F.artificial]

def shrink (F : ReducedFactor α n) : ReducedFactor α n :=
  { F with
    size := F.size - 1
    u := Mat.ofFn fun i j => if i = F.size - 1 ∨ j = F.size - 1 then 0 else F.u i j }

/-- One rotation of the cascade that appended a column, replayed on the columns of `U`. Columns `i` and
`i + 1` of `Q` are `l - 2 - i` and `l - 1 - i` of the directions in reverse, counted from the working
columns. -/
def replayTurn (l size : Nat) (s : Mat α n n × Vec α n) (i : Nat) : Mat α n n × Vec α n :=
  let g := Rotation.annihilate (s.2 i) (s.2 (i + 1))
  (if l - (i + 1) < size then s.1.rotateColsIn size (l - 2 - i) (l - 1 - i) g.c (-g.s) else s.1,
    s.2.rotate i (i + 1) g.c g.s)

def replay (F : ReducedFactor α n) (a : Vec α n) : Mat α n n :=
  let l := F.basis.nullity
  let y := F.basis.q.applyT a
  let part : Vec α n := Vec.ofFn fun i => y (F.basis.size + i)
  (descend (l - 1) (replayTurn l F.size) (F.u, part)).1

/-- The rows of `U` scaled by the roots of `D` and the triangle restored. -/
def restore (F : ReducedFactor α n) : ReducedFactor α n :=
  let scaled : Mat α n n :=
    Mat.ofFn fun i j => if i < F.size ∧ j < F.size then F.u i j * Scalar.sqrt (F.d i) else F.u i j
  { F with u := scaled.triangularizeIn F.size F.size }

/-- The last column of `U` above the diagonal, solved for from `P`. -/
def resolve (F : ReducedFactor α n) (slope : Vec α n) : Except Fault (ReducedFactor α n) :=
  let k := F.size - 1
  (Triangular.solveT k (F.width - 1) F.u fun t => F.project slope (F.width - 1 - t)).map fun w =>
    { F with u := F.u.setCol k fun i => if i < k then w i else F.u i k }

def close (rule : CurvatureRule α) (F : ReducedFactor α n) (curvature : α) : ReducedFactor α n :=
  let k := F.size - 1
  let rest := curvature - dot k (fun i => F.u i k) (fun i => F.u i k)
  let isFlat := decide (Scalar.abs rest ≤ rule.flat)
  { F with
    u := F.u.set k k
      (if isFlat then 1 else Scalar.larger (Scalar.sqrt (Scalar.abs rest)) rule.indefinite)
    d := Vec.ofFn fun i =>
      if i < k then 1 else if i = k then (if isFlat then 0 else Scalar.sign rest) else F.d i }

def add (rule : CurvatureRule α) (P : Mat α n n) (F : ReducedFactor α n) (a : Vec α n) :
    Outcome α (ReducedFactor α n) Unit :=
  match F.basis.append a with
  | .error cause => .fail F cause
  | .ok basis =>
    if F.size = 0 then .done { F with basis, artificial := F.artificial - 1 } ()
    else if F.size = 1 then .done ({ F with basis }).shrink ()
    else
      -- the direction that is taken up is the last one in reverse: the corner is dropped and closed anew
      let dropped := F.d (F.size - 1)
      let G := ({ F with basis, u := F.replay a } : ReducedFactor α n).shrink.restore
      let direction := Vec.ofFn fun i => G.z i 0
      let slope := P.apply direction
      let resolved :=
        if dropped ≤ rule.recompute ∧ 1 < G.size then G.resolve slope else .ok G
      match resolved with
      | .error cause => .fail G cause
      | .ok G => .done (close rule G (dot n direction slope)) ()

/-- Frees the direction just before the free ones: the new last column of `U` and entry of `D`. The
columns `old` are the free directions before. -/
def grow (rule : CurvatureRule α) (P : Mat α n n) (old F : ReducedFactor α n) :
    Except Fault (ReducedFactor α n) :=
  let k := F.size
  let direction := Vec.ofFn fun i => F.z i 0
  let slope := P.apply direction
  let solved :=
    if k = 0 then .ok 0
    else
      (Triangular.solveT k old.width F.u fun t => old.project slope (old.width - 1 - t)).map fun w =>
        (Vec.ofFn fun i => w i / F.d i : Vec α k)
  solved.map fun w =>
    let rest := dot n direction slope - dot k w fun i => F.d i * w i
    let curvature := if Scalar.abs rest ≤ rule.flat then 0 else rest
    { F with
      size := k + 1
      u := F.u.setCol k fun i => if i < k then w i else if i = k then 1 else F.u i k
      d := F.d.set k curvature }

/-- Sets one direction free: an artificial one while there are any, else that of working column `idx`.
Refused while the last curvature is not positive. -/
def remove (rule : CurvatureRule α) (P : Mat α n n) (F : ReducedFactor α n) (idx : Option Int) :
    Outcome α (ReducedFactor α n) Unit :=
  if F.size ≠ 0 ∧ ¬ rule.indefinite < F.d (F.size - 1) then .fail F .notPositive
  else
    let freed : Outcome α (ReducedFactor α n) Unit :=
      if F.artificial = 0 then
        match idx with
        | none => .fail F .indexRequired
        | some i => (F.basis.remove i).within fun basis => { F with basis }
      else
        let G := { F with artificial := F.artificial - 1 }
        match idx with
        | none => .done G ()
        | some i => (Outcome.done G ()).reporting (.indexIgnored i)
    freed.andThen fun G _ =>
      match grow rule P F G with
      | .error cause => .fail G cause
      | .ok G => .done G ()

end ReducedFactor

end ActiveSet
