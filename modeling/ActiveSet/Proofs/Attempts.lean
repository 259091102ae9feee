import ActiveSet.Proofs.Agreement

/-! Changes of a factored restriction that may be refused. Whether one is refused is settled before anything is written:
an addition by the room that is left, a removal by the last curvature and then by what is asked for. Past that point
only a triangle could fail, and it keeps its pivots. So a change goes through or moves nothing, and what the changes
that go through keep is kept by any attempts. -/

namespace ActiveSet

noncomputable section
open Exact

variable {n : ℕ}

namespace ReducedFactor

variable {P : Mat ℝ n n} {F G : ReducedFactor ℝ n} {rule : CurvatureRule ℝ} {op : Change n} {ops : List (Change n)}

def attempt (rule : CurvatureRule ℝ) (P : Mat ℝ n n) (F : ReducedFactor ℝ n) :
    Change n → Outcome ℝ (ReducedFactor ℝ n) Unit
  | .add a => F.add rule P a
  | .remove idx => F.remove rule P idx

/-- Any number of changes, each going on from what the one before has left behind. -/
def attempts (rule : CurvatureRule ℝ) (P : Mat ℝ n n) (F : ReducedFactor ℝ n) (ops : List (Change n)) :
    ReducedFactor ℝ n := ops.foldl (fun F op => (attempt rule P F op).state) F

/-- How a change is to end, read off the factorization as it is before. -/
def Change.verdict (rule : CurvatureRule ℝ) (F : ReducedFactor ℝ n) : Change n → Except Fault Unit
  | .add _ => if F.basis.size = n then .error .fullRank else .ok ()
  | .remove idx =>
    if 0 < F.size ∧ F.d (F.size - 1) ≤ rule.indefinite then .error .notPositive
    else if F.artificial = 0 then
      match idx with
      | none => .error .indexRequired
      | some i => if 0 ≤ i ∧ i < F.basis.size then .ok () else .error (.columnRange i F.basis.size)
    else .ok ()

def AllDefined (rule : CurvatureRule ℝ) (P : Mat ℝ n n) : ReducedFactor ℝ n → List (Change n) → Prop
  | _, [] => True
  | F, op :: ops =>
    (op.verdict rule F = .ok () → op.Defined F) ∧ AllDefined rule P (attempt rule P F op).state ops

theorem change_eq_ok : change rule P F op = .ok G ↔
    (attempt rule P F op).result = .ok () ∧ (attempt rule P F op).state = G := by
  have hchange : change rule P F op = (attempt rule P F op).result.map fun _ => (attempt rule P F op).state := by
    cases op <;> rfl
  rw [hchange, map_eq_ok]
  exact ⟨fun ⟨_, hresult, hstate⟩ => ⟨hresult, hstate⟩, fun ⟨hresult, hstate⟩ => ⟨(), hresult, hstate⟩⟩

theorem barred_iff : F.size ≠ 0 ∧ ¬rule.indefinite < F.d (F.size - 1) ↔
    0 < F.size ∧ F.d (F.size - 1) ≤ rule.indefinite := by
  rw [Nat.pos_iff_ne_zero, not_lt]

theorem Change.verdict_add (a : Vec ℝ n) :
    (Change.add a).verdict rule F = if F.basis.size = n then .error .fullRank else .ok () := rfl

theorem Change.verdict_remove (idx : Option ℤ) : (Change.remove idx).verdict rule F =
    if F.size ≠ 0 ∧ ¬rule.indefinite < F.d (F.size - 1) then .error .notPositive else (F.release idx).result := by
  rw [result_release]
  exact if_congr barred_iff.symm rfl rfl

theorem Signed.result_attempt (hF : Signed F) (hdefined : op.verdict rule F = .ok () → op.Defined F) :
    (attempt rule P F op).result = op.verdict rule F := by
  cases op with
  | add a =>
    have hcount := hF.count
    rw [Change.verdict_add] at hdefined ⊢
    change (F.add rule P a).result = _
    by_cases hfull : F.basis.size = n
    · rw [add_of_full rule P hfull.ge, if_pos hfull]
      rfl
    · rw [if_neg hfull] at hdefined ⊢
      exact (hF.shaped (hdefined rfl)).result_add_of_lt (by omega) a
  | remove idx => exact (hF.result_remove idx).trans (Change.verdict_remove idx).symm

theorem Signed.state_attempt_of_error (hF : Signed F) (hdefined : op.verdict rule F = .ok () → op.Defined F)
    {cause : Fault} (h : (attempt rule P F op).result = .error cause) : (attempt rule P F op).state = F := by
  rw [hF.result_attempt hdefined] at h
  cases op with
  | add a =>
    rw [Change.verdict_add] at h
    split_ifs at h with hfull
    exact congrArg Outcome.state (add_of_full rule P hfull.ge a)
  | remove idx =>
    rw [Change.verdict_remove] at h
    change (F.remove rule P idx).state = F
    rw [remove_eq]
    split_ifs at h ⊢ with hbarred
    · rfl
    · rw [(Outcome.andThen_of_error h).2]
      exact state_release_of_error h

theorem Signed.defined_of_change (hF : Signed F) (hdefined : op.verdict rule F = .ok () → op.Defined F)
    (h : change rule P F op = .ok G) : op.Defined F :=
  hdefined ((hF.result_attempt hdefined).symm.trans (change_eq_ok.1 h).1)

/-- What the changes that go through keep is kept by any attempt: what is refused moves nothing. -/
theorem attempt_keeps {q : ReducedFactor ℝ n → Prop} (hsigned : ∀ F, q F → Signed F)
    (hstep : ∀ F op G, q F → op.Defined F → change rule P F op = .ok G → q G) (hF : q F)
    (hdefined : op.verdict rule F = .ok () → op.Defined F) : q (attempt rule P F op).state := by
  have hS := hsigned F hF
  cases hresult : (attempt rule P F op).result with
  | error cause => rwa [hS.state_attempt_of_error hdefined hresult]
  | ok u =>
    have hchange := change_eq_ok.2 ⟨hresult, rfl⟩
    exact hstep F op _ hF (hS.defined_of_change hdefined hchange) hchange

theorem allDefined_append (before after : List (Change n)) : F.AllDefined rule P (before ++ after) ↔
    F.AllDefined rule P before ∧ (F.attempts rule P before).AllDefined rule P after := by
  induction before generalizing F with
  | nil => exact (iff_of_eq (true_and _)).symm
  | cons op before ih => exact (and_congr_right fun _ => ih).trans and_assoc.symm

theorem Shaped.defined_of_verdict (hF : Shaped F) (hind : 0 ≤ rule.indefinite) (h : op.verdict rule F = .ok ()) :
    op.Defined F := by
  cases op with
  | add a => exact fun i hi => (hF.positive i hi).le
  | remove idx =>
    rw [Change.verdict_remove] at h
    split_ifs at h with hbarred
    have hpositive := hF.positive_of_lt hind fun h0 => by_contra fun hlast => hbarred ⟨h0, hlast⟩
    exact fun i hi => (hpositive i hi).ne'

theorem attempts_keep {q : ReducedFactor ℝ n → Prop} (hsigned : ∀ F, q F → Signed F)
    (hstep : ∀ F op G, q F → op.Defined F → change rule P F op = .ok G → q G) (hF : q F)
    (hdefined : F.AllDefined rule P ops) : q (attempts rule P F ops) := by
  induction ops generalizing F with
  | nil => exact hF
  | cons op ops ih => exact ih (attempt_keeps hsigned hstep hF hdefined.1) hdefined.2

theorem Shaped.allDefined (hF : Shaped F) (hind : 0 ≤ rule.indefinite) (hflat : 0 ≤ rule.flat)
    (ops : List (Change n)) : F.AllDefined rule P ops := by
  induction ops generalizing F with
  | nil => trivial
  | cons op ops ih =>
    have hop : op.verdict rule F = .ok () → op.Defined F := hF.defined_of_verdict hind
    exact ⟨hop, ih (attempt_keeps (fun _ => Shaped.signed) (fun _ _ _ h _ => h.change hind hflat) hF hop)⟩

theorem Shaped.attempts (hF : Shaped F) (hind : 0 ≤ rule.indefinite) (hflat : 0 ≤ rule.flat) (ops : List (Change n)) :
    Shaped (attempts rule P F ops) :=
  attempts_keep (fun _ => Shaped.signed) (fun _ _ _ h _ => h.change hind hflat) hF (hF.allDefined hind hflat ops)

theorem Signed.attempts_keep (hsq : rule.indefinite * rule.indefinite ≤ rule.flat)
    (hP : P.Symmetric) (hF : Signed F) (hC : Curved P rule.flat F)
    (hdefined : F.AllDefined rule P ops) :
    Signed (attempts rule P F ops) ∧ Curved P rule.flat (attempts rule P F ops) :=
  ReducedFactor.attempts_keep (q := fun F => Signed F ∧ Curved P rule.flat F) (fun _ h => h.1)
    (fun _ _ _ h => h.1.change_keeps hsq hP h.2) ⟨hF, hC⟩ hdefined

/-- After any attempts, refused or not, an addition is refused by a basis without room and by nothing else. A removal is
refused by a last curvature that is not above the threshold, else, if no direction is artificial, for want of a position
or for one out of range, and by nothing else. What is refused leaves everything as it was. -/
theorem refusals_leave_no_trace {k : ℕ} (P : Mat ℝ n n) (A : Mat ℝ n k) (tol : Tolerances ℝ) (hk : k ≤ n)
    (hind : 0 ≤ tol.indefinite) (hrelative : 0 ≤ tol.relativeCurvature) :
    ∃ basis, OrthogonalFactor.ofColumns A = .ok basis ∧
      ∀ ops F, (ofFactor (tol.rule P) P basis).attempts (tol.rule P) P ops = F →
        (∀ a, (F.add (tol.rule P) P a).result = if F.basis.size = n then .error .fullRank else .ok ()) ∧
        (∀ idx, (F.remove (tol.rule P) P idx).result =
          if 0 < F.size ∧ F.d (F.size - 1) ≤ tol.indefinite then .error .notPositive
          else if F.artificial = 0 then
            match idx with
            | none => .error .indexRequired
            | some i => if 0 ≤ i ∧ i < F.basis.size then .ok () else .error (.columnRange i F.basis.size)
          else .ok ()) ∧
        ∀ op cause, (attempt (tol.rule P) P F op).result = .error cause → (attempt (tol.rule P) P F op).state = F := by
  obtain ⟨basis, hbasis, hW⟩ := OrthogonalFactor.ofColumns_eq_ok (A := A) hk
  refine ⟨basis, hbasis, fun ops F hrun => ?_⟩
  have hflat : 0 ≤ (tol.rule P).flat := mul_nonneg hrelative P.scale_nonneg
  have hF : Shaped F := hrun ▸ (shaped_ofFactor hW).attempts hind hflat ops
  have hresult : ∀ op, (attempt (tol.rule P) P F op).result = op.verdict (tol.rule P) F := fun op =>
    hF.signed.result_attempt (hF.defined_of_verdict hind)
  exact ⟨fun a => hresult (.add a), fun idx => hresult (.remove idx), fun op cause herror =>
    hF.signed.state_attempt_of_error (hF.defined_of_verdict hind) herror⟩

/-- A removal from no columns is refused and changes nothing, so the addition goes on from the start. Of the one column
that is then there the second cannot be removed. -/
theorem refusals_leave_no_trace_bowl :
    let rule := (Tolerances.standard : Tolerances ℝ).rule bowl
    ∃ F, (ofFactor rule bowl OrthogonalFactor.empty).attempts rule bowl [.remove (some 0), .add oblique] = F ∧
      F.basis.size = 1 ∧ (F.remove rule bowl (some 0)).result = .ok () ∧
      (F.remove rule bowl (some 1)).result = .error (.columnRange 1 1) ∧ (F.remove rule bowl (some 1)).state = F := by
  intro rule
  obtain ⟨basis, hbasis, hall⟩ := refusals_leave_no_trace bowl (0 : Mat ℝ 2 0) Tolerances.standard (by decide)
    (by norm_num [Tolerances.standard]) (by norm_num [Tolerances.standard])
  obtain rfl : OrthogonalFactor.empty = basis := by simpa [OrthogonalFactor.ofColumns] using hbasis
  obtain ⟨-, hD, hone⟩ := add_oblique.2
  set F₀ := ofFactor rule bowl OrthogonalFactor.empty
  set F := (F₀.add rule bowl oblique).state
  have hD₀ : Definite bowl rule F₀ := definite_ofFactor strong_bowl OrthogonalFactor.factors_empty
  have hstay : (F₀.remove rule bowl (some 0)).state = F₀ := by
    obtain ⟨-, hremove, hkept⟩ := hall [] F₀ rfl
    refine hkept (.remove (some 0)) (.columnRange 0 0) ((hremove (some 0)).trans ?_)
    rw [if_neg fun h => not_le.2 (hD₀.last h.1.ne') h.2, if_pos hD₀.artificial]
    rfl
  have hrun : F₀.attempts rule bowl [.remove (some 0), .add oblique] = F :=
    congrArg (fun G : ReducedFactor ℝ 2 => (G.add rule bowl oblique).state) hstay
  obtain ⟨-, hremove, hkept⟩ := hall _ F hrun
  have hcolumn : ∀ i : ℤ, (F.remove rule bowl (some i)).result =
      if 0 ≤ i ∧ i < 1 then .ok () else .error (.columnRange i 1) := by
    intro i
    rw [hremove (some i), if_neg fun h => not_le.2 (hD.last h.1.ne') h.2, if_pos hD.artificial, hone]
    rfl
  exact ⟨F, hrun, hone, hcolumn 0, hcolumn 1, hkept (.remove (some 1)) _ (hcolumn 1)⟩

end ReducedFactor

end
end ActiveSet
