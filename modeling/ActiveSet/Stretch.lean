/-! Sizes that meet entry by entry: equal ones, and a size of one with any other.
-/

namespace ActiveSet

def stretch? (a b : Nat) : Option Nat := if a = b ∨ b = 1 then some a else if a = 1 then some b else none

/-- The place that serves place `i` of the common size. -/
def stretched (size i : Nat) : Nat := if size = 1 then 0 else i

theorem stretch?_self (a : Nat) : stretch? a a = some a := by simp [stretch?]

theorem stretched_of_lt {size i : Nat} (h : i < size) : stretched size i = i := by
  unfold stretched
  split <;> omega

end ActiveSet
