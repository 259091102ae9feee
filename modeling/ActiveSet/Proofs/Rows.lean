import Mathlib.Data.Int.Notation
import Mathlib.Data.List.Perm.Basic
import ActiveSet.WorkingSet

/-! Every row is working or ignored, and the block at the end of the shuffled copy holds the ignored rows in
their order. Activating a row and releasing one keep this. -/

namespace ActiveSet

namespace Position

variable {ρ : Type}

theorem resolve?_lt {size place : ℕ} {i : ℤ} (h : resolve? size i = some place) : place < size := by
  unfold resolve? at h
  split_ifs at h with h0 h1 h2
  · obtain rfl := Option.some.inj h
    omega
  · obtain rfl := Option.some.inj h
    omega

theorem slice_ofNat {xs : List ρ} {a k : ℕ} (h : a + k ≤ xs.length) :
    slice xs a (a + k) = (xs.drop a).take k := by
  have ha : clamp xs.length a = a := clamp_ofNat (by omega)
  have hk : clamp xs.length (a + k) = a + k := by exact_mod_cast clamp_ofNat h
  unfold slice
  rw [ha, hk]
  dsimp only
  rw [Nat.add_sub_cancel_left]

theorem overwrite_ofNat (xs source : List ρ) {a : ℕ} (h : a + source.length ≤ xs.length) :
    overwrite xs a (a + source.length) source =
      .ok (xs.take a ++ source ++ xs.drop (a + source.length)) := by
  have ha : clamp xs.length a = a := clamp_ofNat (by omega)
  have hk : clamp xs.length (a + source.length) = a + source.length := by exact_mod_cast clamp_ofNat h
  unfold overwrite
  rw [ha, hk]
  dsimp only
  rw [Nat.add_sub_cancel_left, if_pos rfl]

end Position

namespace WorkingSet

variable {α ρ β : Type} {w : WorkingSet ρ β}

theorem closeGap_eq_ok {γ : Type} (xs : List γ) (a k : ℕ) (h : a + k < xs.length) :
    ∃ ys, closeGap a k xs = .ok ys ∧ ys.length = xs.length ∧ ys.drop (a + 1) = (xs.drop a).eraseIdx k := by
  have hlen : ((xs.drop a).take k).length = k := by
    rw [List.length_take, List.length_drop]
    omega
  refine ⟨xs.take (a + 1) ++ (xs.drop a).take k ++ xs.drop (a + 1 + k), ?_, ?_, ?_⟩
  · have hwrite := Position.overwrite_ofNat xs ((xs.drop a).take k) (a := a + 1) (by omega)
    rw [hlen] at hwrite
    unfold closeGap
    rw [Position.slice_ofNat (by omega), ← hwrite]
    push_cast
    congr 1
    omega
  · rw [List.length_append, List.length_append, hlen, List.length_take, List.length_drop]
    omega
  · have htake : (xs.take (a + 1)).length = a + 1 := by
      rw [List.length_take]
      omega
    rw [List.append_assoc, List.drop_left' htake, List.eraseIdx_eq_take_drop_succ, List.drop_drop]
    congr 2
    omega

/-- What holds of the two sides of a problem whose rows are split. -/
structure Sound (w : WorkingSet ρ β) : Prop where
  perm : (w.working ++ w.ignored).Perm (List.range w.rows.length)
  rhs : w.rhs.length = w.rows.length
  shuffledRows : w.shuffledRows.length = w.rows.length
  shuffledRhs : w.shuffledRhs.length = w.rows.length
  ignoredRows : w.ignoredRows.map some = w.ignored.map fun i => w.rows[i]?
  ignoredRhs : w.ignoredRhs.map some = w.ignored.map fun i => w.rhs[i]?

theorem map_some_eq_map_getElem? {γ : Type} (xs : List γ) :
    xs.map some = (List.range xs.length).map fun i => xs[i]? := by
  apply List.ext_getElem
  · simp
  · intro i h1 h2
    simp at h1 ⊢

theorem sound_start {rows : List ρ} {rhs : List β} (h : rhs.length = rows.length) : Sound (start rows rhs) := by
  have hfront : (start rows rhs).front = 0 := by simp [start, front]
  refine ⟨by simp [start], h, rfl, h, ?_, ?_⟩
  · rw [ignoredRows, hfront]
    exact map_some_eq_map_getElem? rows
  · rw [ignoredRhs, hfront]
    change rhs.map some = (List.range rows.length).map fun i => rhs[i]?
    rw [← h]
    exact map_some_eq_map_getElem? rhs

theorem Sound.length (hw : Sound w) : w.working.length + w.ignored.length = w.rows.length := by
  simpa using hw.perm.length_eq

theorem Sound.front (hw : Sound w) : w.front = w.working.length := by
  have := hw.length
  unfold WorkingSet.front
  omega

theorem Sound.nodup (hw : Sound w) : (w.working ++ w.ignored).Nodup := hw.perm.nodup_iff.2 List.nodup_range

theorem Sound.mem_iff (hw : Sound w) (i : ℕ) : i ∈ w.working ∨ i ∈ w.ignored ↔ i < w.rows.length := by
  rw [← List.mem_append, hw.perm.mem_iff, List.mem_range]

theorem getElem?_of_map_some {γ : Type} {xs ys : List γ} {is : List ℕ}
    (h : xs.map some = is.map fun i => ys[i]?) {j row : ℕ} {c : γ} (hj : is[j]? = some row)
    (hc : ys[row]? = some c) : xs[j]? = some c := by
  have hj' := congrArg (fun l : List (Option γ) => l[j]?) h
  simpa [hj, hc] using hj'

/-- A block that holds the entries at the places of a list is the list of these entries. -/
theorem eq_map_of_map_some {γ : Type} {xs ys : List γ} {is : List ℕ} {f : ℕ → γ}
    (h : xs.map some = is.map fun i => ys[i]?) (hf : ∀ i ∈ is, ys[i]? = some (f i)) : xs = is.map f := by
  refine List.map_injective_iff.2 (fun _ _ => Option.some.inj) ?_
  rw [h, List.map_map]
  exact List.map_congr_left hf

theorem Sound.length_ignoredRows (hw : Sound w) : w.ignoredRows.length = w.ignored.length := by
  simpa using congrArg List.length hw.ignoredRows

theorem Sound.length_ignoredRhs (hw : Sound w) : w.ignoredRhs.length = w.ignored.length := by
  simpa using congrArg List.length hw.ignoredRhs

theorem Sound.activate (hw : Sound w) {i row : ℕ} (hi : w.ignored[i]? = some row) :
    ∃ w' : WorkingSet ρ β, (w.activate i : Outcome α _ _) = .done w' row ∧ Sound w' ∧ w'.rows = w.rows ∧
      w'.rhs = w.rhs ∧ w'.working = w.working ++ [row] ∧ w'.ignored = w.ignored.eraseIdx i := by
  have hlt : i < w.ignored.length := (List.getElem?_eq_some_iff.1 hi).1
  have hlen := hw.length
  have hfront := hw.front
  obtain ⟨ys, hys, hylen, hydrop⟩ := closeGap_eq_ok w.shuffledRows w.front i
    (by rw [hw.shuffledRows]; omega)
  obtain ⟨zs, hzs, hzlen, hzdrop⟩ := closeGap_eq_ok w.shuffledRhs w.front i
    (by rw [hw.shuffledRhs]; omega)
  set w' : WorkingSet ρ β :=
    ⟨w.rows, w.rhs, w.working ++ [row], w.ignored.eraseIdx i, ys, zs⟩
  have hfront' : w'.front = w.front + 1 := by
    change w.rows.length - (w.ignored.eraseIdx i).length = _
    rw [List.length_eraseIdx_of_lt hlt]
    omega
  refine ⟨w', ?_, ⟨?_, hw.rhs, hylen.trans hw.shuffledRows, hzlen.trans hw.shuffledRhs, ?_, ?_⟩, rfl, rfl, rfl, rfl⟩
  · unfold WorkingSet.activate
    rw [Position.resolve?_ofNat hlt]
    dsimp only
    rw [hi]
    dsimp only
    rw [hys]
    dsimp only
    rw [show ({ w with shuffledRows := ys } : WorkingSet ρ β).front = w.front from rfl, hzs]
  · change (w.working ++ [row] ++ w.ignored.eraseIdx i).Perm _
    refine List.Perm.trans ?_ hw.perm
    rw [List.append_assoc]
    apply List.Perm.append_left
    obtain ⟨_, rfl⟩ := List.getElem?_eq_some_iff.1 hi
    exact (List.getElem_cons_eraseIdx_perm hlt)
  · rw [WorkingSet.ignoredRows, hfront', hydrop, ← List.eraseIdx_map]
    change _ = (w.ignored.eraseIdx i).map _
    rw [← List.eraseIdx_map]
    exact congrArg (List.eraseIdx · i) hw.ignoredRows
  · rw [WorkingSet.ignoredRhs, hfront', hzdrop, ← List.eraseIdx_map]
    change _ = (w.ignored.eraseIdx i).map _
    rw [← List.eraseIdx_map]
    exact congrArg (List.eraseIdx · i) hw.ignoredRhs

/-- What is written in front of a block becomes its first entry. -/
theorem drop_set {γ : Type} {xs : List γ} {a : ℕ} {c : γ} (h : a < xs.length) :
    (xs.set a c).drop a = c :: xs.drop (a + 1) := by
  rw [List.drop_eq_getElem_cons (by simpa using h), List.getElem_set_self, List.drop_set_of_lt (by omega)]

/-- A working row given by its position, also from the end, can be released. -/
theorem Sound.release (hw : Sound w) {idx : ℤ} {place : ℕ}
    (hidx : Position.resolve? w.working.length idx = some place) :
    ∃ row, w.working[place]? = some row ∧ ∃ w' : WorkingSet ρ β, (w.release idx : Outcome α _ _) = .done w' row ∧
      Sound w' ∧ w'.rows = w.rows ∧ w'.rhs = w.rhs ∧ w'.working = w.working.eraseIdx place ∧
      w'.ignored = row :: w.ignored := by
  have hlt := Position.resolve?_lt hidx
  have hlen := hw.length
  have hfront := hw.front
  obtain ⟨row, hrow⟩ : ∃ row, w.working[place]? = some row := ⟨_, List.getElem?_eq_getElem hlt⟩
  have hmem : row < w.rows.length := (hw.mem_iff row).1 (Or.inl (List.mem_of_getElem? hrow))
  obtain ⟨a, ha⟩ : ∃ a, w.rows[row]? = some a := ⟨_, List.getElem?_eq_getElem hmem⟩
  obtain ⟨c, hc⟩ : ∃ c, w.rhs[row]? = some c := ⟨_, List.getElem?_eq_getElem (by rw [hw.rhs]; exact hmem)⟩
  set w' : WorkingSet ρ β := ⟨w.rows, w.rhs, w.working.eraseIdx place, row :: w.ignored,
    w.shuffledRows.set (w.front - 1) a, w.shuffledRhs.set (w.front - 1) c⟩
  have hfront' : w'.front = w.front - 1 := by
    change w.rows.length - (row :: w.ignored).length = _
    rw [List.length_cons]
    omega
  refine ⟨row, hrow, w', ?_, ⟨?_, hw.rhs, ?_, ?_, ?_, ?_⟩, rfl, rfl, rfl, rfl⟩
  · unfold WorkingSet.release
    rw [hidx]
    dsimp only
    rw [hrow]
    dsimp only
    rw [ha]
    dsimp only
    rw [hc]
    dsimp only
    rw [if_pos (by rw [hw.shuffledRhs]; omega)]
  · refine List.Perm.trans ?_ hw.perm
    obtain ⟨_, rfl⟩ := List.getElem?_eq_some_iff.1 hrow
    exact List.perm_middle.trans ((List.getElem_cons_eraseIdx_perm hlt).append_right _)
  · rw [List.length_set]
    exact hw.shuffledRows
  · rw [List.length_set]
    exact hw.shuffledRhs
  · rw [WorkingSet.ignoredRows, hfront', drop_set (by rw [hw.shuffledRows]; omega), Nat.sub_add_cancel (by omega)]
    change some a :: w.ignoredRows.map some = w.rows[row]? :: w.ignored.map _
    rw [ha, hw.ignoredRows]
  · rw [WorkingSet.ignoredRhs, hfront', drop_set (by rw [hw.shuffledRhs]; omega), Nat.sub_add_cancel (by omega)]
    change some c :: w.ignoredRhs.map some = w.rhs[row]? :: w.ignored.map _
    rw [hc, hw.ignoredRhs]

theorem working_activate (w : WorkingSet ρ β) (idx : ℤ) :
    w.working ⊆ (w.activate idx : Outcome α (WorkingSet ρ β) ℕ).state.working := by
  unfold activate
  split
  · exact List.Subset.refl _
  split
  · exact List.Subset.refl _
  split
  · exact List.Subset.refl _
  dsimp only
  split
  · exact List.Subset.refl _
  · exact List.subset_append_left ..

theorem working_release (w : WorkingSet ρ β) (idx : ℤ) : ∃ row, ∀ other ∈ w.working, other ≠ row →
    other ∈ (w.release idx : Outcome α (WorkingSet ρ β) ℕ).state.working := by
  unfold release
  split
  · exact ⟨0, fun _ hother _ => hother⟩
  next place _ =>
    split
    · exact ⟨0, fun _ hother _ => hother⟩
    next row hrow =>
      refine ⟨row, fun other hother hne => ?_⟩
      split
      · exact hother
      dsimp only
      split
      · exact hother
      split_ifs
      · obtain ⟨j, hj, rfl⟩ := List.mem_iff_getElem.1 hother
        refine List.mem_eraseIdx_iff_getElem.2 ⟨j, hj, fun hplace => hne ?_, rfl⟩
        subst hplace
        exact (List.getElem?_eq_some_iff.1 hrow).2
      · exact hother

end WorkingSet

end ActiveSet
