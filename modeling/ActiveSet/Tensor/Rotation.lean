import ActiveSet.Position
import ActiveSet.Tensor

/-! Rotations of loosely shaped arrays, with positions that may be counted from the end.

A vector holds plain numbers, so both of its new entries are computed from the old ones; the rows and
columns of a matrix are written one after the other.
-/

namespace ActiveSet

namespace Tensor

variable {α : Type} [Scalar α]

def positions (size : Nat) (i j : Int) : Except Fault (Nat × Nat) :=
  match Position.resolve? size i, Position.resolve? size j with
  | some i, some j => .ok (i, j)
  | _, _ => .error .outOfRange

def rotateRows (t : Tensor α) (i j : Int) (c s : α) : Except Fault (Tensor α) :=
  match t.shape with
  | [] => .error .missingAxis
  | [n] =>
    (positions n i j).map fun p =>
      let v : Vec α n := Vec.ofFn fun k => t.entries.getD k 0
      ofList (v.rotate p.1 p.2 c s).toList
  | r :: rest =>
    (positions r i j).map fun p =>
      ⟨t.shape, (ofMat ((t.toMat r (volume rest)).rotateRows p.1 p.2 c s)).entries⟩

def rotateCols (t : Tensor α) (i j : Int) (c s : α) : Except Fault (Tensor α) :=
  match t.shape with
  | [r, k] => (positions k i j).map fun p => ofMat ((t.toMat r k).rotateCols p.1 p.2 c s)
  | r :: k :: rest =>
    (positions k i j).map fun p =>
      let depth := volume rest
      let slab := fun a => (ofMat ((t.slab a [k, depth]).toMat k depth |>.rotateRows p.1 p.2 c s)).entries
      ⟨t.shape, (List.range r).foldl (fun acc a => acc ++ slab a) #[]⟩
  | _ => .error .missingAxis

/-- Makes an upper Hessenberg matrix triangular. An array with at most one row is already; the entries
of a matrix are numbers. -/
def triangularize (t : Tensor α) : Except Fault (Tensor α) :=
  match t.shape with
  | [] => .error .missingAxis
  | [r] => if r ≤ 1 then .ok t else .error .missingAxis
  | [r, k] =>
    if k + 1 < r then .error .outOfRange else .ok (ofMat (t.toMat r k).triangularize)
  | r :: k :: _ =>
    if r ≤ 1 then .ok t else if k = 0 then .error .outOfRange else .error .notNumber

end Tensor

end ActiveSet
