import ActiveSet.Mat

/-! Plane rotations: the pair `(c, s)` that turns `(f, g)` into `(r, 0)`, applied to two rows, two columns
or two entries, and the sweep of rotations that makes an upper Hessenberg matrix triangular.
-/

namespace ActiveSet

structure Rotation (α : Type) where
  c : α
  s : α
  /-- The length of the pair that was turned. -/
  r : α

namespace Rotation

variable {α : Type} [Scalar α]

/-- The rotation that annihilates `g`; the identity if both entries are zero. -/
def annihilate (f g : α) : Rotation α :=
  let r := Scalar.hypot f g
  if Scalar.same r 0 then ⟨1, 0, 0⟩ else ⟨f / r, g / r, r⟩

end Rotation

variable {α : Type} [Scalar α] {r c n : Nat}

namespace Vec

def rotate (v : Vec α n) (i j : Nat) (c s : α) : Vec α n :=
  ofFn fun k =>
    if k = j then -s * v i + c * v j else if k = i then c * v i + s * v j else v k

theorem get_rotate (v : Vec α n) {i j k : Nat} (hk : k < n) (cs sn : α) :
    (v.rotate i j cs sn) k =
      if k = j then -sn * v i + cs * v j else if k = i then cs * v i + sn * v j else v k := by
  simp [rotate, hk]

end Vec

namespace Mat

/-- Rows `i` and `j` after the rotation, in columns `lo, …, hi - 1` only. Row `j` is read after row `i`
has been written, which matters if they are the same row. -/
def rotateRowsIn (lo hi : Nat) (M : Mat α r c) (i j : Nat) (cs sn : α) : Mat α r c :=
  let first : Mat α r c :=
    ofFn fun k l => if k = i ∧ lo ≤ l ∧ l < hi then cs * M i l + sn * M j l else M k l
  ofFn fun k l => if k = j ∧ lo ≤ l ∧ l < hi then -sn * M i l + cs * first j l else first k l

def rotateRows (M : Mat α r c) (i j : Nat) (cs sn : α) : Mat α r c := rotateRowsIn 0 c M i j cs sn

def rotateColsIn (hi : Nat) (M : Mat α r c) (i j : Nat) (cs sn : α) : Mat α r c :=
  let first : Mat α r c :=
    ofFn fun k l => if l = i ∧ k < hi then cs * M k i + sn * M k j else M k l
  ofFn fun k l => if l = j ∧ k < hi then -sn * M k i + cs * first k j else first k l

def rotateCols (M : Mat α r c) (i j : Nat) (cs sn : α) : Mat α r c := rotateColsIn r M i j cs sn

theorem get_rotateRowsIn {M : Mat α r c} {lo hi i j k l : Nat} {cs sn : α} (hij : i ≠ j) (hk : k < r)
    (hl : l < c) (hj : j < r) :
    (rotateRowsIn lo hi M i j cs sn) k l =
      if lo ≤ l ∧ l < hi then
        if k = i then cs * M i l + sn * M j l else if k = j then -sn * M i l + cs * M j l else M k l
      else M k l := by
  unfold rotateRowsIn
  by_cases hki : k = i <;> by_cases hkj : k = j <;> by_cases h : lo ≤ l ∧ l < hi <;>
    simp_all [Ne.symm hij]

theorem get_rotateColsIn {M : Mat α r c} {hi i j k l : Nat} {cs sn : α} (hij : i ≠ j) (hk : k < r)
    (hl : l < c) (hj : j < c) :
    (rotateColsIn hi M i j cs sn) k l =
      if k < hi then
        if l = i then cs * M k i + sn * M k j else if l = j then -sn * M k i + cs * M k j else M k l
      else M k l := by
  unfold rotateColsIn
  by_cases hli : l = i <;> by_cases hlj : l = j <;> by_cases h : k < hi <;>
    simp_all [Ne.symm hij]

theorem get_rotateCols {M : Mat α r c} {i j k l : Nat} {cs sn : α} (hij : i ≠ j) (hk : k < r)
    (hl : l < c) (hj : j < c) :
    (rotateCols M i j cs sn) k l =
      if l = i then cs * M k i + sn * M k j else if l = j then -sn * M k i + cs * M k j else M k l := by
  simp [rotateCols, get_rotateColsIn hij hk hl hj, hk]

/-- One turn of the sweep: entry `(i + 1, i)` is rotated away and put to zero. -/
def clearBelow (hi : Nat) (M : Mat α r c) (i : Nat) : Mat α r c :=
  let g := Rotation.annihilate (M i i) (M (i + 1) i)
  (rotateRowsIn 0 hi M i (i + 1) g.c g.s).set (i + 1) i 0

def triangularizeIn (k hi : Nat) (M : Mat α r c) : Mat α r c := ascend (k - 1) (clearBelow hi) M

def triangularize (M : Mat α r c) : Mat α r c := triangularizeIn r c M

end Mat

end ActiveSet
