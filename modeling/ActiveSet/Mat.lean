import ActiveSet.Vec

/-! Matrices of a fixed size, read by position: `M i j` is zero outside the size.

A block of a matrix is never copied out: operations take the range of rows or columns they touch.
-/

namespace ActiveSet

structure Mat (α : Type) (r c : Nat) where
  store : Vector (Vector α c) r

namespace Mat

variable {α : Type} {r c n : Nat}

def ofFn (f : Nat → Nat → α) : Mat α r c :=
  ⟨Vector.ofFn fun i => Vector.ofFn fun j => f i j⟩

def toLists (M : Mat α r c) : List (List α) := M.store.toList.map Vector.toList

variable [Scalar α]

def get (M : Mat α r c) (i j : Nat) : α :=
  if hi : i < r then (if hj : j < c then M.store[i][j] else 0) else 0

instance : CoeFun (Mat α r c) fun _ => Nat → Nat → α := ⟨get⟩

theorem get_ofFn (f : Nat → Nat → α) (i j : Nat) :
    (ofFn f : Mat α r c) i j = if i < r ∧ j < c then f i j else 0 := by
  unfold get ofFn
  by_cases hi : i < r <;> by_cases hj : j < c <;> simp [hi, hj]

@[simp] theorem get_ofFn_of_lt (f : Nat → Nat → α) {i j : Nat} (hi : i < r) (hj : j < c) :
    (ofFn f : Mat α r c) i j = f i j := by simp [get_ofFn, hi, hj]

theorem ext {M N : Mat α r c} (h : ∀ i < r, ∀ j < c, M i j = N i j) : M = N := by
  cases M with
  | mk s =>
    cases N with
    | mk t =>
      congr 1
      ext i hi j hj
      simpa [get, hi, hj] using h i hi j hj

theorem get_of_le (M : Mat α r c) {i j : Nat} (h : r ≤ i ∨ c ≤ j) : M i j = 0 := by
  unfold get
  split
  · split
    · omega
    · rfl
  · rfl

instance : Zero (Mat α r c) := ⟨ofFn fun _ _ => 0⟩

@[simp] theorem get_zero (i j : Nat) : (0 : Mat α r c) i j = 0 := by
  show (ofFn fun _ _ => 0 : Mat α r c) i j = 0
  simp [get_ofFn]

def identity : Mat α n n := ofFn fun i j => if i = j then 1 else 0

theorem get_identity {i j : Nat} (hi : i < n) (hj : j < n) :
    (identity : Mat α n n) i j = if i = j then 1 else 0 := by simp [identity, hi, hj]

def row (M : Mat α r c) (i : Nat) : Vec α c := Vec.ofFn fun j => M i j

@[simp] theorem get_row (M : Mat α r c) (i j : Nat) : M.row i j = M i j := by
  by_cases h : j < c
  · simp [row, h]
  · rw [Vec.get_of_le _ (Nat.le_of_not_lt h), get_of_le M (Or.inr (Nat.le_of_not_lt h))]

def col (M : Mat α r c) (j : Nat) : Vec α r := Vec.ofFn fun i => M i j

@[simp] theorem get_col (M : Mat α r c) (i j : Nat) : M.col j i = M i j := by
  by_cases h : i < r
  · simp [col, h]
  · rw [Vec.get_of_le _ (Nat.le_of_not_lt h), get_of_le M (Or.inl (Nat.le_of_not_lt h))]

def rows (M : Mat α r c) : List (Vec α c) := (List.range r).map M.row

theorem getElem?_rows (M : Mat α r c) {i : Nat} (h : i < r) : M.rows[i]? = some (M.row i) := by
  simp [rows, h]

def set (M : Mat α r c) (i j : Nat) (a : α) : Mat α r c :=
  ofFn fun k l => if k = i ∧ l = j then a else M k l

theorem get_set (M : Mat α r c) {k l : Nat} (hk : k < r) (hl : l < c) (i j : Nat) (a : α) :
    (M.set i j a) k l = if k = i ∧ l = j then a else M k l := by simp [set, hk, hl]

def setRow (M : Mat α r c) (i : Nat) (f : Nat → α) : Mat α r c :=
  ofFn fun k l => if k = i then f l else M k l

theorem get_setRow (M : Mat α r c) {k l : Nat} (hk : k < r) (hl : l < c) (i : Nat) (f : Nat → α) :
    (M.setRow i f) k l = if k = i then f l else M k l := by simp [setRow, hk, hl]

def setCol (M : Mat α r c) (j : Nat) (f : Nat → α) : Mat α r c :=
  ofFn fun k l => if l = j then f k else M k l

theorem get_setCol (M : Mat α r c) {k l : Nat} (hk : k < r) (hl : l < c) (j : Nat) (f : Nat → α) :
    (M.setCol j f) k l = if l = j then f k else M k l := by simp [setCol, hk, hl]

def apply (M : Mat α r c) (v : Vec α c) : Vec α r := Vec.ofFn fun i => dot c (M i) v

theorem get_apply (M : Mat α r c) (v : Vec α c) {i : Nat} (h : i < r) :
    M.apply v i = dot c (M i) v := by simp [apply, h]

def applyT (M : Mat α r c) (v : Vec α r) : Vec α c := Vec.ofFn fun j => dot r (fun i => M i j) v

theorem get_applyT (M : Mat α r c) (v : Vec α r) {j : Nat} (h : j < c) :
    M.applyT v j = dot r (fun i => M i j) v := by simp [applyT, h]

def symmetrize (M : Mat α n n) : Mat α n n := ofFn fun i j => 0.5 * (M i j + M j i)

theorem get_symmetrize (M : Mat α n n) {i j : Nat} (hi : i < n) (hj : j < n) :
    M.symmetrize i j = 0.5 * (M i j + M j i) := by simp [symmetrize, hi, hj]

def Symmetric (M : Mat α n n) : Prop := ∀ i < n, ∀ j < n, M i j = M j i

def isFinite (M : Mat α r c) : Bool := M.toLists.all fun row => row.all Scalar.isFinite

/-- The largest entry in absolute value; an empty matrix counts as zero. -/
def scale (M : Mat α r c) : α :=
  if r = 0 ∨ c = 0 then 0
  else maximum (r - 1) fun i => maximum (c - 1) fun j => Scalar.abs (M i j)

end Mat

end ActiveSet
