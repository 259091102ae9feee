import ActiveSet.Fault

/-! Positions that may be counted from the end: `-1` is the last entry of a list.

A range `[from, to)` is cut to the list first. Writing a list into a range needs as many entries as the
range has places, or a single entry, which is then repeated.
-/

namespace ActiveSet

namespace Position

variable {ρ : Type}

/-- The place that a position means in a list of the given size. -/
def resolve? (size : Nat) (i : Int) : Option Nat :=
  if 0 ≤ i then (if i < size then some i.toNat else none)
  else if 0 ≤ i + size then some (i + size).toNat
  else none

def clamp (size : Nat) (i : Int) : Nat :=
  if 0 ≤ i then min i.toNat size else (i + size).toNat

def slice (xs : List ρ) (lo hi : Int) : List ρ :=
  let a := clamp xs.length lo
  (xs.drop a).take (clamp xs.length hi - a)

def overwrite (xs : List ρ) (lo hi : Int) (source : List ρ) : Except Fault (List ρ) :=
  let a := clamp xs.length lo
  let places := clamp xs.length hi - a
  if source.length = places then .ok (xs.take a ++ source ++ xs.drop (a + places))
  else
    match source with
    | [only] => .ok (xs.take a ++ List.replicate places only ++ xs.drop (a + places))
    | _ => .error .sizeMismatch

@[simp] theorem resolve?_ofNat {size k : Nat} (h : k < size) : resolve? size k = some k := by
  simp [resolve?, h]

@[simp] theorem clamp_ofNat {size k : Nat} (h : k ≤ size) : clamp size k = k := by
  simp [clamp, Nat.min_eq_left h]

end Position

end ActiveSet
