import ActiveSet.Fault
import ActiveSet.Rotation
import ActiveSet.Stretch

/-! Arrays whose number of axes is only known when they are read.

Entries are stored with the last axis running fastest. Where two arrays meet entry by entry, an axis of
length one stretches to the length of the other.
-/

namespace ActiveSet

structure Tensor (α : Type) where
  shape : List Nat
  entries : Array α

namespace Tensor

variable {α : Type}

def volume (shape : List Nat) : Nat := shape.foldl (· * ·) 1

def size (t : Tensor α) : Nat := t.entries.size

def flatten (t : Tensor α) : List α := t.entries.toList

/-- All index lists of a shape, the last index running fastest. -/
def indices : List Nat → List (List Nat)
  | [] => [[]]
  | k :: rest => (List.range k).flatMap fun i => (indices rest).map (i :: ·)

def place : List Nat → List Nat → Nat
  | k :: rest, i :: is => (i % k) * volume rest + place rest is
  | _, _ => 0

def ofFn (shape : List Nat) (f : List Nat → α) : Tensor α := ⟨shape, ((indices shape).map f).toArray⟩

def ofList (entries : List α) : Tensor α := ⟨[entries.length], entries.toArray⟩

/-- The entry at an index list; an index into an axis of length one is ignored. -/
def get [Zero α] (t : Tensor α) (index : List Nat) : α := t.entries.getD (place t.shape index) 0

def slab (t : Tensor α) (a : Nat) (shape : List Nat) : Tensor α :=
  ⟨shape, t.entries.extract (a * volume shape) ((a + 1) * volume shape)⟩

variable [Scalar α] {r c : Nat}

def toMat (t : Tensor α) (r c : Nat) : Mat α r c :=
  Mat.ofFn fun i j => t.entries.getD (i * c + j) 0

def ofMat (M : Mat α r c) : Tensor α := ⟨[r, c], M.toLists.flatten.toArray⟩

/-- The shape in which two shapes meet, aligned at their last axes. -/
def meet? (s t : List Nat) : Option (List Nat) :=
  let rank := max s.length t.length
  let padded := fun u : List Nat => List.replicate (rank - u.length) 1 ++ u
  (List.zipWith stretch? (padded s) (padded t)).mapM id

def spread (t : Tensor α) (index : List Nat) : α := t.get (index.drop (index.length - t.shape.length))

def combine (f : α → α → α) (s t : Tensor α) : Except Fault (Tensor α) :=
  match meet? s.shape t.shape with
  | none => .error .sizeMismatch
  | some shape => .ok (ofFn shape fun index => f (s.spread index) (t.spread index))

def transpose (t : Tensor α) : Tensor α := ofFn t.shape.reverse fun index => t.get index.reverse

def symmetrize (t : Tensor α) : Except Fault (Tensor α) :=
  t.combine (fun a b => 0.5 * (a + b)) t.transpose

/-- The shape of a product. A vector is a row on the left and a column on the right; the axes before the
last two stretch. -/
def productShape? (s t : List Nat) : Option (List Nat) := do
  let k ← s.getLast?
  let rows := s.dropLast
  match t.reverse with
  | [] => none
  | [l] => if k = l then some rows else none
  | q :: l :: stack =>
    if k ≠ l then none
    else
      match rows.getLast? with
      | none => some (stack.reverse ++ [q])
      | some p => (meet? rows.dropLast stack.reverse).map (· ++ [p, q])

def apply {n : Nat} (t : Tensor α) (x : Vec α n) : Except Fault (Tensor α) :=
  if t.shape.getLast? = some n then
    .ok (ofFn t.shape.dropLast fun index => dot n (fun k => t.get (index ++ [k])) x)
  else .error .sizeMismatch

/-- The largest size of an entry of a vector, or the largest sum of sizes along a row of a matrix; zero
if there are no entries. -/
def largest (t : Tensor α) : Except Fault α :=
  match t.shape with
  | [k] => .ok (if k = 0 then 0 else maximum (k - 1) fun i => Scalar.abs (t.get [i]))
  | [r, c] =>
    .ok (if r = 0 then 0 else maximum (r - 1) fun i => sum c fun j => Scalar.abs (t.get [i, j]))
  | _ => .error .sizeMismatch

end Tensor

end ActiveSet
