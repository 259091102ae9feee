import ActiveSet.Mat

/-!
Cholesky factors of a symmetric matrix with diagonal pivoting, cut at the first pivot that is too small.

The factor is built row by row in the order of the pivots. Turn `j` takes the first largest entry of
what is left of the diagonal and stops if that entry is not positive. Only the upper triangle of the
matrix is read.
-/

namespace ActiveSet

/-- The order of the rows and, in that order, the leading rows of the factor. -/
structure Cholesky (α : Type) (n : Nat) where
  order : Vec Nat n
  factor : Mat α n n
  rank : Nat

namespace Cholesky

variable {α : Type} [Scalar α] {n : Nat}

def symmetric (M : Mat α n n) (i j : Nat) : α := if i ≤ j then M i j else M j i

/-- What the first `j` rows of the factor leave of diagonal entry `i`. -/
def left (M : Mat α n n) (s : Cholesky α n) (j i : Nat) : α :=
  symmetric M (s.order i) (s.order i) - sum j fun k => s.factor k i * s.factor k i

/-- The first place from `j` on with the largest entry. After the first turn an entry that is not a
number gives way to any other. -/
def pivot (n : Nat) (d : Nat → α) (j : Nat) : Nat :=
  ascend (n - (j + 1)) (fun best t =>
    let i := j + 1 + t
    if d best < d i || (0 < j && !Scalar.isNumber (d best)) then i else best) j

def exchange (s : Cholesky α n) (j p : Nat) : Cholesky α n :=
  { s with
    order := s.order.exchange j p
    factor := Mat.ofFn fun k l =>
      if l = j then s.factor k p else if l = p then s.factor k j else s.factor k l }

def extend (M : Mat α n n) (s : Cholesky α n) (j : Nat) (root : α) : Cholesky α n :=
  { s with
    rank := j + 1
    factor := s.factor.setRow j fun i =>
      if i < j then 0
      else if i = j then root
      else
        (symmetric M (s.order j) (s.order i) - sum j fun k => s.factor k j * s.factor k i) / root }

def turn (M : Mat α n n) (s : Cholesky α n) (j : Nat) : Cholesky α n :=
  if s.rank ≠ j then s
  else
    let d := left M s j
    let p := pivot n d j
    -- a pivot that is no number stops the turns as well
    if 0 < d p then extend M (s.exchange j p) j (Scalar.sqrt (d p)) else s

def start : Cholesky α n := ⟨Vec.ofFn id, 0, 0⟩

def full (M : Mat α n n) : Cholesky α n := ascend n (turn M) start

/-- The number of leading pivots whose root exceeds `tol` and whose value exceeds `curvature`. -/
def cut (s : Cholesky α n) (tol curvature : α) : Nat :=
  ((List.range s.rank).find? fun i =>
    !(decide (tol < s.factor i i) && decide (curvature < s.factor i i * s.factor i i))).getD s.rank

def truncate (s : Cholesky α n) (rank : Nat) : Cholesky α n :=
  { s with rank, factor := Mat.ofFn fun i j => if i ≤ j ∧ j < rank then s.factor i j else 0 }

/-- The factorization cut at `tol` and `curvature`; the order keeps every exchange that was made. -/
def ofMat (M : Mat α n n) (tol curvature : α) : Cholesky α n :=
  let s := full M
  s.truncate (s.cut tol curvature)

end Cholesky

end ActiveSet
