import ActiveSet.Decimal
import ActiveSet.Fault

/-! The table in which the progress of a solve is printed: its header, the layout of a row, and rows whose
cells are handed in one by one.
-/

namespace ActiveSet

namespace Table

def header (gaps : Bool) : String :=
  "Iter \t  Objective  \t Inf Linear \t Radius \t Gradient res \t D[end, end] \t AC" ++
    if gaps then "\t\t ||LDL'-Z'PZ||   ||Q*Q'-I|| \t ||Q1*R1-A1||" else ""

structure Texts where
  iteration : String
  objective : String
  infeasibility : String
  radius : String
  residual : String
  curvature : String
  working : String
  artificial : String
  gaps : List String

def Texts.line (t : Texts) : String :=
  t.iteration ++ " \t  " ++ t.objective ++ " \t " ++ t.infeasibility ++ " \t " ++ t.radius ++ " \t " ++
    t.residual ++ " \t " ++ t.curvature ++ " \t " ++ t.working ++ "/" ++ t.artificial ++
    if t.gaps.isEmpty then "" else "    \t " ++ " \t ".intercalate t.gaps

def number (x : Float) : String := Decimal.scientific 5 x

/-- A residual that is not known yet is filled up to the width of a number. -/
def residual (x : Float) : String := number x ++ if x.isNaN then "   " else ""

inductive Cell where
  | empty
  | whole (k : Int)
  | decimal (x : Float)

namespace Cell

def count : Cell → Except Fault String
  | empty => .error .missingCell
  | whole k => .ok (toString k)
  | decimal _ => .error .notWhole

def measure (write : Float → String) : Cell → Except Fault String
  | empty => .error .missingCell
  | whole k => .ok (write (Float.ofInt k))
  | decimal x => .ok (write x)

def isEmpty : Cell → Bool
  | empty => true
  | _ => false

end Cell

/-- The cells of a row. The gaps are three, or count as none if the first is empty. -/
structure Cells where
  iteration : Cell
  objective : Cell
  infeasibility : Cell
  radius : Cell
  residual : Cell
  curvature : Cell
  working : Cell
  artificial : Cell
  gaps : List Cell

/-- The line of a row, its cells looked at from the residual on and then from left to right. -/
def Cells.line (c : Cells) : Except Fault String := do
  let residual ← c.residual.measure Table.residual
  let iteration ← c.iteration.count
  let objective ← c.objective.measure number
  let infeasibility ← c.infeasibility.measure number
  let radius ← c.radius.measure number
  let curvature ← c.curvature.measure number
  let working ← c.working.count
  let artificial ← c.artificial.count
  let gaps ←
    if (c.gaps.head?.map Cell.isEmpty).getD true then pure [] else c.gaps.mapM (Cell.measure number)
  return (
    { iteration, objective, infeasibility, radius, residual, curvature, working, artificial, gaps } :
      Texts).line

end Table

end ActiveSet
