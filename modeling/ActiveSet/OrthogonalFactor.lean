import ActiveSet.Outcome
import ActiveSet.Reflector
import ActiveSet.Rotation

/-! The orthogonal factorization `W = Q1 R1` of the working columns, kept up to date as columns come and go.

`Q` is square and `R` lives in the leading block of its buffer; the columns of `Q` past the live ones
span what is orthogonal to every working column.
-/

namespace ActiveSet

structure OrthogonalFactor (α : Type) (n : Nat) where
  /-- The number of working columns. -/
  size : Nat
  q : Mat α n n
  r : Mat α n n

namespace OrthogonalFactor

variable {α : Type} [Scalar α] {n k : Nat}

def empty : OrthogonalFactor α n := ⟨0, Mat.identity, 0⟩

def ofColumns (A : Mat α n k) : Except Fault (OrthogonalFactor α n) :=
  if n < k then .error .tooManyColumns
  else if k = 0 then .ok empty
  else if A.isFinite then
    let f := A.orthogonalize
    .ok ⟨k, f.1, Mat.ofFn fun i j => if i < k ∧ j < k then f.2 i j else 0⟩
  else .error .notFinite

def nullity (F : OrthogonalFactor α n) : Nat := n - F.size

/-- One rotation of the backward cascade, on entries `i` and `i + 1` of the column and the same columns
of `Q`. -/
def turnBack (s : Mat α n n × Vec α n) (i : Nat) : Mat α n n × Vec α n :=
  let g := Rotation.annihilate (s.2 i) (s.2 (i + 1))
  (s.1.rotateCols i (i + 1) g.c g.s, s.2.rotate i (i + 1) g.c g.s)

/-- Rotates `y = Qᵀ a` to zero below its entry `size`, turning the columns of `Q` along. -/
def cascade (F : OrthogonalFactor α n) (a : Vec α n) : Mat α n n × Vec α n :=
  descend (n - (F.size + 1)) (fun s t => turnBack s (F.size + t)) (F.q, F.q.applyT a)

def freeComponents (F : OrthogonalFactor α n) (a : Vec α n) : List α :=
  let y := F.q.applyT a
  (List.range F.nullity).map fun t => y (F.size + t)

def withColumn (F : OrthogonalFactor α n) (q : Mat α n n) (y : Nat → α) : OrthogonalFactor α n :=
  ⟨F.size + 1, q, F.r.setCol F.size fun i => if i ≤ F.size then y i else F.r i F.size⟩

/-- Appends the column `a` by a cascade of rotations from the last free direction to the first. -/
def append (F : OrthogonalFactor α n) (a : Vec α n) : Except Fault (OrthogonalFactor α n) :=
  if n ≤ F.size then .error .fullRank
  else
    let s := F.cascade a
    .ok (F.withColumn s.1 s.2)

def reflector (F : OrthogonalFactor α n) (a : Vec α n) : Reflector α n :=
  Reflector.clearing (F.q.applyT a) F.size

/-- Appends the column `a` by one reflection of the free directions. -/
def appendReflected (F : OrthogonalFactor α n) (a : Vec α n) : Except Fault (OrthogonalFactor α n) :=
  if n ≤ F.size then .error .fullRank
  else
    let y := F.q.applyT a
    if (F.freeComponents a).all Scalar.isFinite then
      let h := F.reflector a
      .ok (F.withColumn (h.applyRight F.q) fun i => if i = F.size then h.beta else y i)
    else .error .notFinite

/-- One rotation of the forward cascade: column `i + 1` of `R` loses its entry below row `i`. -/
def turnForward (lo hi : Nat) (s : Mat α n n × Mat α n n) (i : Nat) : Mat α n n × Mat α n n :=
  let g := Rotation.annihilate (s.2 i (i + 1)) (s.2 (i + 1) (i + 1))
  (s.1.rotateCols i (i + 1) g.c g.s,
    (s.2.rotateRowsIn lo hi i (i + 1) g.c g.s).set (i + 1) (i + 1) 0)

/-- `R` without its column `idx`: later columns move up one place and the last place is cleared. -/
def dropColumn (size idx : Nat) (R : Mat α n n) : Mat α n n :=
  Mat.ofFn fun i j =>
    if i = size - 1 ∨ j = size - 1 then 0
    else if i < size ∧ idx ≤ j ∧ j < size - 1 then R i (j + 1)
    else R i j

def erase (F : OrthogonalFactor α n) (idx : Nat) : OrthogonalFactor α n :=
  let s := ascend (F.size - (idx + 1)) (fun s t => turnForward (idx + 1) F.size s (idx + t)) (F.q, F.r)
  ⟨F.size - 1, s.1, dropColumn F.size idx s.2⟩

def remove (F : OrthogonalFactor α n) (idx : Int) : Outcome α (OrthogonalFactor α n) Unit :=
  if 0 ≤ idx ∧ idx < F.size then
    (Outcome.done (F.erase idx.toNat) ()).reporting (.columnRemoved idx.toNat (F.size - 1))
  else .fail F (.columnRange idx F.size)

end OrthogonalFactor

end ActiveSet
