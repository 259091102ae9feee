import ActiveSet.Fault
import ActiveSet.Scalar

/-! What a solve reports while it runs, in the order in which it happens.
-/

namespace ActiveSet

structure Gaps (α : Type) where
  curvature : α
  orthogonality : α
  columns : α

/-- A solve seen from outside at one iteration. The residual is missing before the first optimality
check and the curvature while no direction is free. -/
structure Snapshot (α : Type) where
  iteration : Nat
  objective : α
  infeasibility : α
  radius : α
  residual : Option α
  curvature : Option α
  working : Nat
  artificial : Nat
  gaps : Option (Gaps α)

inductive Event (α : Type) where
  | columnRemoved (idx left : Nat)
  | artificialLeft (count : Nat)
  | indexIgnored (idx : Int)
  | rowAdded (iteration row : Nat)
  | rowRemoved (iteration row : Nat)
  | refining (iteration : Nat) (residual : α)
  | rayFound
  /-- A snapshot handed to the caller, who may not be listening. -/
  | shown (info : Snapshot α)
  | tableHeader (gaps : Bool)
  | tableRow (info : Snapshot α)
  | brokeDown (iteration : Nat) (cause : Fault)
  | limitReached (limit : Nat)
  | unboundedBelow

namespace Event

variable {α : Type}

def snapshot? : Event α → Option (Snapshot α)
  | shown info => some info
  | _ => none

def handed (events : List (Event α)) : List (Snapshot α) := events.filterMap snapshot?

@[simp] theorem handed_nil : handed ([] : List (Event α)) = [] := rfl

@[simp] theorem handed_append (events later : List (Event α)) :
    handed (events ++ later) = handed events ++ handed later := List.filterMap_append

end Event

end ActiveSet
