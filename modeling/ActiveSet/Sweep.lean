import ActiveSet.Scalar

/-! Counted loops: `ascend k f s` runs `f` at 0, …, k - 1 and `descend k f s` at k - 1, …, 0.

Sums and norms of the first entries of a vector are the loops used most. An empty norm is zero by
definition, so that an empty nullspace needs no arithmetic.
-/

namespace ActiveSet

variable {α σ : Type}

def ascend : Nat → (σ → Nat → σ) → σ → σ
  | 0, _, s => s
  | k + 1, f, s => f (ascend k f s) k

def descend : Nat → (σ → Nat → σ) → σ → σ
  | 0, _, s => s
  | k + 1, f, s => descend k f (f s k)

@[simp] theorem ascend_zero (f : σ → Nat → σ) (s : σ) : ascend 0 f s = s := rfl

@[simp] theorem ascend_succ (k : Nat) (f : σ → Nat → σ) (s : σ) :
    ascend (k + 1) f s = f (ascend k f s) k := rfl

@[simp] theorem descend_zero (f : σ → Nat → σ) (s : σ) : descend 0 f s = s := rfl

@[simp] theorem descend_succ (k : Nat) (f : σ → Nat → σ) (s : σ) :
    descend (k + 1) f s = descend k f (f s k) := rfl

theorem ascend_keeps {p : Nat → σ → Prop} {f : σ → Nat → σ} {s : σ} (h0 : p 0 s) (k : Nat)
    (hstep : ∀ i t, i < k → p i t → p (i + 1) (f t i)) : p k (ascend k f s) := by
  induction k with
  | zero => exact h0
  | succ k ih => exact hstep k _ (Nat.lt_succ_self k) (ih fun i t hi => hstep i t (Nat.lt_succ_of_lt hi))

theorem descend_keeps {p : Nat → σ → Prop} {f : σ → Nat → σ} (k : Nat) {s : σ} (hk : p k s)
    (hstep : ∀ i t, i < k → p (i + 1) t → p i (f t i)) : p 0 (descend k f s) := by
  induction k generalizing s with
  | zero => exact hk
  | succ k ih =>
    exact ih (hstep k s (Nat.lt_succ_self k) hk) fun i t hi => hstep i t (Nat.lt_succ_of_lt hi)

def sum [Zero α] [Add α] : Nat → (Nat → α) → α
  | 0, _ => 0
  | k + 1, f => sum k f + f k

@[simp] theorem sum_zero [Zero α] [Add α] (f : Nat → α) : sum 0 f = 0 := rfl

@[simp] theorem sum_succ [Zero α] [Add α] (k : Nat) (f : Nat → α) :
    sum (k + 1) f = sum k f + f k := rfl

theorem sum_congr [Zero α] [Add α] {k : Nat} {f g : Nat → α} (h : ∀ i < k, f i = g i) :
    sum k f = sum k g := by
  induction k with
  | zero => rfl
  | succ k ih =>
    rw [sum_succ, sum_succ, ih fun i hi => h i (Nat.lt_succ_of_lt hi), h k (Nat.lt_succ_self k)]

variable [Scalar α]

def dot (k : Nat) (u v : Nat → α) : α := sum k fun i => u i * v i

theorem dot_congr {k : Nat} {u u' v v' : Nat → α} (hu : ∀ i < k, u i = u' i)
    (hv : ∀ i < k, v i = v' i) : dot k u v = dot k u' v' :=
  sum_congr fun i hi => by rw [hu i hi, hv i hi]

def norm (k : Nat) (v : Nat → α) : α := if k = 0 then 0 else Scalar.sqrt (dot k v v)

/-- The same norm built up with `hypot`, which neither overflows nor loses small entries. -/
def length (k : Nat) (v : Nat → α) : α := ascend k (fun r i => Scalar.hypot r (v i)) 0

/-- The largest of `f 0, …, f k`. One entry that is not a number makes the result not a number. -/
def maximum (k : Nat) (f : Nat → α) : α :=
  ascend k (fun best i => if f (i + 1) ≤ best || !Scalar.isNumber best then best else f (i + 1)) (f 0)

end ActiveSet
