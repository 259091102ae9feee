import ActiveSet.Double
import ActiveSet.Mat
import ActiveSet.Proofs.Rows

/-! Rows that move between the two lists, any number of times. Whatever the moves, every row is in one of the lists,
and the block at the end of the shuffled copies holds the ignored rows in the order of their list. A move takes one
row to the end of the working ones or to the front of the ignored ones and leaves the order of the rest alone. -/

namespace ActiveSet

namespace WorkingSet

variable {α : Type} {m n : ℕ} {w : WorkingSet (Vec α n) α}

/-- A row is moved by its position in the list that it leaves. -/
inductive Move where
  | activate (idx : ℤ)
  | release (idx : ℤ)

def move (w : WorkingSet (Vec α n) α) : Move → Outcome α (WorkingSet (Vec α n) α) ℕ
  | .activate idx => w.activate idx
  | .release idx => w.release idx

def moves (w : WorkingSet (Vec α n) α) : List Move → Outcome α (WorkingSet (Vec α n) α) (List ℕ)
  | [] => .done w []
  | mv :: rest => (w.move mv).andThen fun w row => (w.moves rest).andThen fun w rows => .done w (row :: rows)

/-- The position is one of the list that the row leaves. A working row may also be counted from the end. -/
def Move.InRange (w : WorkingSet (Vec α n) α) : Move → Prop
  | .activate idx => 0 ≤ idx ∧ idx < w.ignored.length
  | .release idx => -w.working.length ≤ idx ∧ idx < w.working.length

/-- Every position is in range when it is the turn of its move. -/
def InRange (w : WorkingSet (Vec α n) α) : List Move → Prop
  | [] => True
  | mv :: rest => mv.InRange w ∧ (w.move mv).state.InRange rest

theorem Sound.activate_in_range (hw : Sound w) {i : ℕ} (hi : i < w.ignored.length) :
    ∃ (row : ℕ) (w' : WorkingSet (Vec α n) α), w.ignored[i]? = some row ∧
      w.activate i = (.done w' row : Outcome α _ _) ∧ Sound w' ∧ w'.rows = w.rows ∧ w'.rhs = w.rhs ∧
      w'.working = w.working ++ [row] ∧ w'.ignored = w.ignored.eraseIdx i := by
  have hrow := List.getElem?_eq_getElem hi
  obtain ⟨w', hw'⟩ := hw.activate (α := α) hrow
  exact ⟨_, w', hrow, hw'⟩

theorem Sound.release_in_range (hw : Sound w) {idx : ℤ} (hlow : -w.working.length ≤ idx)
    (hhigh : idx < w.working.length) :
    ∃ (place row : ℕ) (w' : WorkingSet (Vec α n) α), (place : ℤ) = (if idx < 0 then idx + w.working.length else idx) ∧
      w.working[place]? = some row ∧ w.release idx = (.done w' row : Outcome α _ _) ∧
      Sound w' ∧ w'.rows = w.rows ∧ w'.rhs = w.rhs ∧ w'.working = w.working.eraseIdx place ∧
      w'.ignored = row :: w.ignored := by
  obtain ⟨place, hplace, hresolve⟩ : ∃ place : ℕ, (place : ℤ) = (if idx < 0 then idx + w.working.length else idx) ∧
      Position.resolve? w.working.length idx = some place := by
    unfold Position.resolve?
    by_cases hneg : idx < 0
    · refine ⟨(idx + w.working.length).toNat, ?_, ?_⟩
      · rw [if_pos hneg]
        omega
      · rw [if_neg (by omega), if_pos (by omega)]
    · refine ⟨idx.toNat, ?_, ?_⟩
      · rw [if_neg hneg]
        omega
      · rw [if_pos (by omega), if_pos hhigh]
  obtain ⟨row, hrow, w', hw'⟩ := hw.release (α := α) hresolve
  exact ⟨place, row, w', hplace, hrow, hw'⟩

theorem Sound.move (hw : Sound w) {mv : Move} (h : mv.InRange w) :
    ∃ row w', w.move mv = .done w' row ∧ Sound w' ∧ w'.rows = w.rows ∧ w'.rhs = w.rhs := by
  cases mv with
  | activate idx =>
    lift idx to ℕ using h.1
    obtain ⟨row, w', -, hmove, hsound, hrows, hrhs, -⟩ := hw.activate_in_range (by simpa using h.2)
    exact ⟨row, w', hmove, hsound, hrows, hrhs⟩
  | release idx =>
    obtain ⟨-, row, w', -, -, hmove, hsound, hrows, hrhs, -⟩ := hw.release_in_range h.1 h.2
    exact ⟨row, w', hmove, hsound, hrows, hrhs⟩

theorem Sound.moves (hw : Sound w) {ops : List Move} (h : w.InRange ops) :
    ∃ rows w', w.moves ops = .done w' rows ∧ Sound w' ∧ w'.rows = w.rows ∧ w'.rhs = w.rhs := by
  induction ops generalizing w with
  | nil => exact ⟨[], w, rfl, hw, rfl, rfl⟩
  | cons mv rest ih =>
    obtain ⟨hfirst, hrest⟩ := h
    obtain ⟨row, v, hmove, hv, hrows, hrhs⟩ := hw.move hfirst
    rw [hmove] at hrest
    obtain ⟨rows, w', hmoves, hw', hrows', hrhs'⟩ := ih hv hrest
    refine ⟨row :: rows, w', ?_, hw', hrows'.trans hrows, hrhs'.trans hrhs⟩
    unfold WorkingSet.moves
    rw [hmove, Outcome.done_andThen, hmoves, Outcome.done_andThen]

/-- From a start with every row ignored, no move to a position in range is refused. After any number of them the lists
hold each row once, the block holds the ignored rows and right-hand sides in the order of their list, and the rows
themselves are as they were. The next move gives the row that it takes from its list, to the end of the working ones or
to the front of the ignored ones, and leaves all others in their order. -/
theorem moves_keep_split [Scalar α] (A : Mat α m n) (b : Vec α m) (ops : List Move)
    (hops : (start A.rows b.toList).InRange ops) : ∃ rows w, (start A.rows b.toList).moves ops = .done w rows ∧
      (w.working ++ w.ignored).Perm (List.range m) ∧
      w.ignoredRows = w.ignored.map A.row ∧ w.ignoredRhs = w.ignored.map b ∧ w.rows = A.rows ∧ w.rhs = b.toList ∧
      (∀ i : ℕ, i < w.ignored.length → ∃ (row : ℕ) (w' : WorkingSet (Vec α n) α), w.ignored[i]? = some row ∧
        w.activate i = (.done w' row : Outcome α _ _) ∧ w'.working = w.working ++ [row] ∧
        w'.ignored = w.ignored.eraseIdx i) ∧
      ∀ idx : ℤ, -w.working.length ≤ idx → idx < w.working.length →
        ∃ (place row : ℕ) (w' : WorkingSet (Vec α n) α),
          (place : ℤ) = (if idx < 0 then idx + w.working.length else idx) ∧ w.working[place]? = some row ∧
          w.release idx = (.done w' row : Outcome α _ _) ∧ w'.working = w.working.eraseIdx place ∧
          w'.ignored = row :: w.ignored := by
  have hstart : Sound (start A.rows b.toList) := sound_start (by simp [Mat.rows, Vec.toList])
  obtain ⟨rows, w, hmoves, hw, hrows, hrhs⟩ := hstart.moves hops
  have hcount : w.rows.length = m := by
    rw [hrows]
    simp [start, Mat.rows]
  have hlt : ∀ i ∈ w.ignored, i < m := fun i hi => hcount ▸ (hw.mem_iff i).1 (Or.inr hi)
  refine ⟨rows, w, hmoves, hcount ▸ hw.perm, ?_, ?_, hrows, hrhs, fun i hi => ?_, fun idx hlow hhigh => ?_⟩
  · refine eq_map_of_map_some hw.ignoredRows fun i hi => ?_
    rw [hrows]
    exact Mat.getElem?_rows A (hlt i hi)
  · refine eq_map_of_map_some hw.ignoredRhs fun i hi => ?_
    rw [hrhs]
    exact Vec.getElem?_toList b (hlt i hi)
  · obtain ⟨row, w', hrow, hactivate, -, -, -, hworking, hignored⟩ := hw.activate_in_range hi
    exact ⟨row, w', hrow, hactivate, hworking, hignored⟩
  · obtain ⟨place, row, w', hplace, hrow, hrelease, -, -, -, hworking, hignored⟩ := hw.release_in_range hlow hhigh
    exact ⟨place, row, w', hplace, hrow, hrelease, hworking, hignored⟩

def triple : WorkingSet (Vec Float 3) Float := start (Mat.identity : Mat Float 3 3).rows (0 : Vec Float 3).toList

theorem moves_keep_split_triple : triple.InRange [.activate 1, .activate 1, .release (-2)] ∧
    ∃ rows w, triple.moves [.activate 1, .activate 1, .release (-2)] = .done w rows ∧ rows = [1, 2, 1] ∧
      w.working = [2] ∧ w.ignored = [1, 0] ∧ w.ignoredRows = [Mat.identity.row 1, Mat.identity.row 0] := by
  have hops : triple.InRange [.activate 1, .activate 1, .release (-2)] := by
    refine ⟨?_, ?_, ?_, trivial⟩
    · exact (by decide : (0 : ℤ) ≤ 1 ∧ (1 : ℤ) < 3)
    · exact (by decide : (0 : ℤ) ≤ 1 ∧ (1 : ℤ) < 2)
    · exact (by decide : (-2 : ℤ) ≤ -2 ∧ (-2 : ℤ) < 2)
  obtain ⟨rows, w, hmoves, -, hblock, -⟩ := moves_keep_split _ _ _ hops
  have hrows : (triple.moves [.activate 1, .activate 1, .release (-2)]).result = .ok [1, 2, 1] := rfl
  have hlists : (triple.moves [.activate 1, .activate 1, .release (-2)]).state.working = [2] ∧
      (triple.moves [.activate 1, .activate 1, .release (-2)]).state.ignored = [1, 0] := ⟨rfl, rfl⟩
  change triple.moves _ = _ at hmoves
  rw [hmoves] at hrows hlists
  obtain ⟨hworking, hignored⟩ : w.working = [2] ∧ w.ignored = [1, 0] := hlists
  refine ⟨hops, rows, w, hmoves, Except.ok.inj hrows, hworking, hignored, ?_⟩
  rw [hblock, hignored]
  rfl

end WorkingSet

end ActiveSet
