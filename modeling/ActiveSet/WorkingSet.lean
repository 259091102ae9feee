import ActiveSet.Outcome
import ActiveSet.Position

/-! The rows of `A x ≤ b` split into working and ignored ones.

The ignored rows are kept together at the end of a shuffled copy, in the order of the list `ignored`, so
that a ratio test reads one block. Activating a row moves the rows before it down by one place; releasing
one puts it in front. The two sides are updated one after the other: first the rows, then the right-hand
sides, then the lists.
-/

namespace ActiveSet

structure WorkingSet (ρ β : Type) where
  rows : List ρ
  rhs : List β
  working : List Nat
  ignored : List Nat
  shuffledRows : List ρ
  shuffledRhs : List β

namespace WorkingSet

variable {α ρ β : Type}

def start (rows : List ρ) (rhs : List β) : WorkingSet ρ β :=
  ⟨rows, rhs, [], List.range rows.length, rows, rhs⟩

def front (w : WorkingSet ρ β) : Nat := w.rows.length - w.ignored.length

def ignoredRows (w : WorkingSet ρ β) : List ρ := w.shuffledRows.drop w.front

def ignoredRhs (w : WorkingSet ρ β) : List β := w.shuffledRhs.drop w.front

def workingRows (w : WorkingSet ρ β) : List ρ := w.working.filterMap fun i => w.rows[i]?

/-- The block with the entry at `idx` taken out: those before it move down by one place. -/
def closeGap {γ : Type} (start : Nat) (idx : Int) (xs : List γ) : Except Fault (List γ) :=
  Position.overwrite xs (start + 1) (start + idx + 1) (Position.slice xs start (start + idx))

/-- Moves entry `idx` of the ignored rows to the end of the working ones, and gives its row. -/
def activate (w : WorkingSet ρ β) (idx : Int) : Outcome α (WorkingSet ρ β) Nat :=
  match Position.resolve? w.ignored.length idx with
  | none => .fail w .outOfRange
  | some place =>
    match w.ignored[place]? with
    | none => .fail w .outOfRange
    | some row =>
      match closeGap w.front idx w.shuffledRows with
      | .error cause => .fail w cause
      | .ok shuffledRows =>
        let w := { w with shuffledRows }
        match closeGap w.front idx w.shuffledRhs with
        | .error cause => .fail w cause
        | .ok shuffledRhs =>
          .done
            { w with
              shuffledRhs
              ignored := w.ignored.eraseIdx place
              working := w.working ++ [row] }
            row

/-- Moves entry `idx` of the working rows to the front of the ignored ones, and gives its row. -/
def release (w : WorkingSet ρ β) (idx : Int) : Outcome α (WorkingSet ρ β) Nat :=
  match Position.resolve? w.working.length idx with
  | none => .fail w .outOfRange
  | some place =>
    match w.working[place]? with
    | none => .fail w .outOfRange
    | some row =>
      let slot := w.front - 1
      match w.rows[row]? with
      | none => .fail w .outOfRange
      | some a =>
        -- kept also if the right-hand side is then out of range
        let w := { w with shuffledRows := w.shuffledRows.set slot a }
        match w.rhs[row]? with
        | none => .fail w .outOfRange
        | some b =>
          if slot < w.shuffledRhs.length then
            .done
              { w with
                shuffledRhs := w.shuffledRhs.set slot b
                ignored := row :: w.ignored
                working := w.working.eraseIdx place }
              row
          else .fail w .outOfRange

end WorkingSet

end ActiveSet
