import ActiveSet.OrthogonalFactor

/-! The Hessian restricted to the free directions, kept as a plain matrix.

`data i j` is `zᵢᵀ P zⱼ` for the columns `zᵢ` of `Q` past the working ones. The other places of the buffer
hold what earlier restrictions left there and are never read.
-/

namespace ActiveSet

structure ReducedHessian (α : Type) (n : Nat) where
  basis : OrthogonalFactor α n
  data : Mat α n n

namespace ReducedHessian

variable {α : Type} [Scalar α] {n : Nat}

def size (H : ReducedHessian α n) : Nat := H.basis.nullity

def z (H : ReducedHessian α n) (i j : Nat) : α := H.basis.q i (H.basis.size + j)

def product (P Q : Mat α n n) (i j : Nat) : α :=
  dot n (P.applyT (Q.col i)) fun k => Q k j

def ofFactor (P : Mat α n n) (basis : OrthogonalFactor α n) : ReducedHessian α n :=
  let whole := product P basis.q
  ⟨basis, Mat.ofFn fun i j =>
    if basis.size ≤ i ∧ basis.size ≤ j then 0.5 * (whole i j + whole j i) else 0⟩

/-- Entry `(i, j)` of the restriction. -/
def get (H : ReducedHessian α n) (i j : Nat) : α := H.data (H.basis.size + i) (H.basis.size + j)

/-- `Hᵀ M H` for a reflector that leaves the first `lo` coordinates alone; places before `lo` stay. -/
def reflect (lo : Nat) (h : Reflector α n) (M : Mat α n n) : Mat α n n :=
  let part := fun i l => dot (n - lo) (fun t => h.entry (lo + t) i) fun t => M (lo + t) l
  let half : Mat α n n := Mat.ofFn fun i l => if lo ≤ i ∧ lo ≤ l then part i l else 0
  Mat.ofFn fun i j =>
    if lo ≤ i ∧ lo ≤ j then dot (n - lo) (fun t => half i (lo + t)) fun t => h.entry (lo + t) j
    else M i j

def add (H : ReducedHessian α n) (a : Vec α n) : Except Fault (ReducedHessian α n) :=
  (H.basis.appendReflected a).map fun basis =>
    ⟨basis, reflect H.basis.size (H.basis.reflector a) H.data⟩

def remove (H : ReducedHessian α n) (P : Mat α n n) (idx : Int) :
    Outcome α (ReducedHessian α n) Unit :=
  let o := H.basis.remove idx
  match o.result with
  | .error cause => .fail H cause
  | .ok _ =>
    let basis := o.state
    let lo := basis.size
    let slope := P.apply (basis.q.col lo)
    let first := basis.q.applyT slope
    ⟨⟨basis, Mat.ofFn fun i j =>
      if i = lo ∧ lo ≤ j then first j else if j = lo ∧ lo ≤ i then first i else H.data i j⟩,
      o.events, .ok ()⟩

end ReducedHessian

end ActiveSet
