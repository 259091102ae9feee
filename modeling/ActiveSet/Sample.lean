import ActiveSet.Decimal
import ActiveSet.Solve
import ActiveSet.Solver.Start

/-! Sample problems: one built from a stream of numbers, and a small one from the textbooks.
-/

namespace ActiveSet

namespace Sample

variable {α : Type} [Scalar α]

def take (k : Nat) (stream : List α) : Except Fault (List α × List α) :=
  if stream.length < k then .error .tooFewValues else .ok (stream.splitAt k)

def matrix (r c : Nat) (entries : List α) : Mat α r c :=
  let store := entries.toArray
  Mat.ofFn fun i j => store.getD (i * c + j) 0

def vector (n : Nat) (entries : List α) : Vec α n :=
  let store := entries.toArray
  Vec.ofFn fun i => store.getD i 0

/-- A problem with `m` rows in `n` unknowns, and the numbers that were not used. The Hessian is `M Mᵀ + I`
if it is to be convex and the symmetric part of `M` if not; the rows leave room around a point. -/
def problem (n m : Nat) (convex : Bool) (stream : List α) :
    Except Fault (Problem α m n × List α) := do
  let (square, stream) ← take (n * n) stream
  let M : Mat α n n := matrix n n square
  let P : Mat α n n :=
    if convex then Mat.ofFn fun i j => dot n (M i) (M j) + if i = j then 1 else 0 else M.symmetrize
  let (q, stream) ← take n stream
  let (rows, stream) ← take (m * n) stream
  let A : Mat α m n := matrix m n rows
  let (center, stream) ← take n stream
  let (room, stream) ← take m stream
  let reach := A.apply (vector n center)
  let room := vector m room
  return (⟨P, vector n q, A, Vec.ofFn fun i => reach i + room i + 0.1⟩, stream)

def textbook : Problem Float 5 2 where
  P := Mat.ofFn fun i j => if i = j then 2.0 else 0.0
  q := vector 2 [-2.0, -5.0]
  A := matrix 5 2 [-1.0, 2.0, 1.0, 2.0, 1.0, -2.0, -1.0, 0.0, 0.0, -1.0]
  b := vector 5 [2.0, 6.0, 2.0, 0.0, 0.0]

def shortText (x : Float) : String :=
  String.ofList ((Decimal.fixed 8 x).toList.reverse.dropWhile (· = '0')).reverse

def listText (items : List String) (separator : String) : String :=
  "[" ++ separator.intercalate items ++ "]"

def textbookLines : List String :=
  let rule := "".pushn '=' 60
  let solved : Except Fault (Report Float 5 2) := do
    let (s, _) ← Solver.start textbook (vector 2 [2.0, 0.0]) ⟨0.0, none⟩ Tolerances.standard
    (s.run ⟨5000, 0, 50⟩).result
  [rule, "Example 1: Textbook convex QP", rule] ++
    match solved with
    | .error cause => [cause.text]
    | .ok r =>
      ["Status: Status." ++ r.status.name,
       "Solution: x = " ++ listText (r.x.toList.map shortText) " ",
       "Objective: " ++ Decimal.fixed 6 r.objective,
       "Active constraints: " ++ listText (r.working.map toString) ", ",
       "", ""]

end Sample

end ActiveSet
