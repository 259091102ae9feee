import ActiveSet.Progress

/-! Rows of the progress table made of cells: a row is refused for its first cell that does not fit, in the order in
which they are looked at, and otherwise written; the cells of a snapshot give the line of the snapshot. -/

namespace ActiveSet

namespace Table

namespace Cell

def countFault : Cell → Option Fault
  | empty => some .missingCell
  | whole _ => none
  | decimal _ => some .notWhole

def measureFault : Cell → Option Fault
  | empty => some .missingCell
  | _ => none

def countText : Cell → String
  | whole k => toString k
  | _ => ""

def measureText (write : Float → String) : Cell → String
  | empty => ""
  | whole k => write (Float.ofInt k)
  | decimal x => write x

theorem count_eq (c : Cell) : c.count = c.countFault.elim (.ok c.countText) .error := by cases c <;> rfl

theorem measure_eq (write : Float → String) (c : Cell) :
    c.measure write = c.measureFault.elim (.ok (c.measureText write)) .error := by cases c <;> rfl

end Cell

namespace Cells

def shown (c : Cells) : List Cell := if (c.gaps.head?.map Cell.isEmpty).getD true then [] else c.gaps

/-- What is wrong with each cell, in the order in which they are looked at. -/
def faults (c : Cells) : List (Option Fault) :=
  [c.residual.measureFault, c.iteration.countFault, c.objective.measureFault, c.infeasibility.measureFault,
    c.radius.measureFault, c.curvature.measureFault, c.working.countFault, c.artificial.countFault] ++
    c.shown.map Cell.measureFault

def texts (c : Cells) : Texts where
  iteration := c.iteration.countText
  objective := c.objective.measureText number
  infeasibility := c.infeasibility.measureText number
  radius := c.radius.measureText number
  residual := c.residual.measureText Table.residual
  curvature := c.curvature.measureText number
  working := c.working.countText
  artificial := c.artificial.countText
  gaps := c.shown.map (Cell.measureText number)

def firstOf {α : Type} (faults : List (Option Fault)) (a : α) : Except Fault α :=
  (faults.findSome? id).elim (.ok a) .error

theorem firstOf_cons {α β : Type} {f : Option Fault} {rest : List (Option Fault)} {a : α} {b : β}
    {next : α → Except Fault β} (h : next a = firstOf rest b) :
    (f.elim (.ok a) .error : Except Fault α) >>= next = firstOf (f :: rest) b := by
  cases f with
  | none => exact h
  | some e => rfl

theorem firstOf_map {α β : Type} (faults : List (Option Fault)) (a : α) (f : α → β) :
    (firstOf faults a >>= fun a => pure (f a)) = firstOf faults (f a) := by
  unfold firstOf
  cases faults.findSome? id <;> rfl

theorem mapM_measure (write : Float → String) (gaps : List Cell) :
    gaps.mapM (Cell.measure write) = firstOf (gaps.map Cell.measureFault) (gaps.map (Cell.measureText write)) := by
  induction gaps with
  | nil => rfl
  | cons c gaps ih =>
    rw [List.mapM_cons, Cell.measure_eq, ih]
    refine firstOf_cons ?_
    exact firstOf_map _ _ _

/-- A row is refused for the first cell that does not fit, and otherwise written. -/
theorem line_eq (c : Cells) : c.line = firstOf c.faults c.texts.line := by
  unfold line
  simp only [Cell.measure_eq, Cell.count_eq]
  iterate 8 refine firstOf_cons ?_
  by_cases h : (c.gaps.head?.map Cell.isEmpty).getD true = true
  · have hshown : c.shown = [] := if_pos h
    rw [if_pos h, texts, hshown]
    rfl
  · have hshown : c.shown = c.gaps := if_neg h
    rw [if_neg h, texts, hshown, mapM_measure]
    exact firstOf_map _ _ _

end Cells

end Table

def Snapshot.cells (s : Snapshot Float) : Table.Cells where
  iteration := .whole s.iteration
  objective := .decimal s.objective
  infeasibility := .decimal s.infeasibility
  radius := .decimal s.radius
  residual := .decimal (s.residual.getD Double.undefined)
  curvature := .decimal (s.curvature.getD Double.undefined)
  working := .whole s.working
  artificial := .whole s.artificial
  gaps := (s.gaps.map fun g => [.decimal g.curvature, .decimal g.orthogonality, .decimal g.columns]).getD []

/-- The row of a snapshot is never refused, and is the line that is printed of it. -/
theorem Snapshot.line_cells (s : Snapshot Float) : s.cells.line = .ok s.row := by
  rw [Table.Cells.line_eq]
  obtain ⟨iteration, objective, infeasibility, radius, residual, curvature, working, artificial, gaps⟩ := s
  cases gaps <;> rfl

end ActiveSet
