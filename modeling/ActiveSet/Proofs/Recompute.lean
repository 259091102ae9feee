import ActiveSet.Proofs.Attempts

/-! The last column of `U` solved for anew is the one that is there. What an addition leaves in place determines it:
the columns before are a regular triangle, and against each of them it gives an entry of the restriction. So the
threshold at which an addition solves for it can be anything: every change ends the same way and leaves the same
behind. -/

namespace ActiveSet

noncomputable section
open Exact

variable {n : ℕ}

namespace ReducedFactor

variable {P : Mat ℝ n n} {F : ReducedFactor ℝ n} {rule : CurvatureRule ℝ} {flat : ℝ} {a : Vec ℝ n} {op : Change n}

theorem Opened.resolve_eq (hF : Opened F) (hoff : OffCorner P F) (hsize : 0 < F.size) :
    F.resolve (lastSlope P F) = .ok F := by
  have hcount := hF.count
  obtain ⟨G, hG⟩ := hF.exists_resolve (lastSlope P F)
  obtain ⟨w, hw, rfl⟩ := resolve_eq_ok hG
  rw [hF.width_eq] at hw
  obtain ⟨⟨-, hne⟩, hw⟩ := Triangular.solveT_eq_ok.1 hw
  have hcolumn : ∀ i < F.size - 1, F.u i (F.size - 1) = w i := by
    rw [hw]
    refine Triangular.eq_forward (fun i _ j hj => hF.upper i j hj) hne fun i hi => ?_
    rw [hF.project_lastSlope (by omega), ← hoff i (by omega) (F.size - 1) (by omega) (by omega)]
    exact (dot_cut (by omega) fun l hl _ => by rw [hF.upper l i (by omega), zero_mul]).symm
  have hsame : F.resolved w = F.u := by
    refine Mat.ext fun i _ j _ => ?_
    rw [get_resolved (by omega)]
    split_ifs with hij
    · rw [hij.1, hcolumn i hij.2]
    · rfl
  rw [hG, hsame]

/-- What an addition closes is what it has left in place, solved for anew or not. -/
theorem Curved.add_eq (hC : Curved P flat F) (hF : Shaped F) {basis : OrthogonalFactor ℝ n}
    (hb : F.basis.append a = .ok basis) (hsize : 1 < F.size) : F.add rule P a =
      .done (close rule (F.dropped basis a) (dot n (Vec.ofFn fun i => (F.dropped basis a).z i 0 : Vec ℝ n)
        (lastSlope P (F.dropped basis a)))) () := by
  have hpos : 0 < (F.dropped basis a).size := by
    change 0 < F.size - 1
    omega
  have hresolve := (hF.opened hb (by omega)).resolve_eq (hC.offCorner hF hb (by omega)) hpos
  unfold ReducedFactor.add
  rw [hb]
  dsimp only
  rw [if_neg (by omega), if_neg (by omega)]
  unfold lastSlope dropped at hresolve
  rw [hresolve, ite_self]
  rfl

theorem Curved.add_recompute (hC : Curved P flat F) (hF : Shaped F) (c : ℝ) (a : Vec ℝ n) :
    F.add { rule with recompute := c } P a = F.add rule P a := by
  cases hb : F.basis.append a with
  | error cause =>
    unfold ReducedFactor.add
    rw [hb]
  | ok basis =>
    rcases le_or_gt F.size 1 with hle | hlt
    · unfold ReducedFactor.add
      rw [hb]
      dsimp only
      by_cases h0 : F.size = 0
      · rw [if_pos h0, if_pos h0]
      · rw [if_neg h0, if_neg h0, if_pos (by omega), if_pos (by omega)]
    · rw [hC.add_eq hF hb hlt, hC.add_eq hF hb hlt]
      rfl

theorem Signed.attempt_recompute (hF : Signed F) (hC : Curved P flat F) (c : ℝ)
    (hdefined : op.verdict rule F = .ok () → op.Defined F) :
    attempt { rule with recompute := c } P F op = attempt rule P F op := by
  cases op with
  | add a =>
    change F.add _ P a = F.add rule P a
    rw [Change.verdict_add] at hdefined
    by_cases hfull : F.basis.size = n
    · rw [add_of_full _ P hfull.ge, add_of_full rule P hfull.ge]
    · rw [if_neg hfull] at hdefined
      exact hC.add_recompute (hF.shaped (hdefined rfl)) c a
  | remove idx => rfl

/-- The outcomes of changes made one after the other, each from what the one before has left behind. -/
def session (rule : CurvatureRule ℝ) (P : Mat ℝ n n) :
    ReducedFactor ℝ n → List (Change n) → List (Outcome ℝ (ReducedFactor ℝ n) Unit)
  | _, [] => []
  | F, op :: ops => attempt rule P F op :: session rule P (attempt rule P F op).state ops

theorem Signed.session_recompute (hsq : rule.indefinite * rule.indefinite ≤ rule.flat)
    (hP : P.Symmetric) (hF : Signed F) (hC : Curved P rule.flat F) (c : ℝ) {ops : List (Change n)}
    (hdefined : F.AllDefined rule P ops) :
    session { rule with recompute := c } P F ops = session rule P F ops := by
  induction ops generalizing F with
  | nil => rfl
  | cons op ops ih =>
    obtain ⟨hop, hops⟩ := hdefined
    obtain ⟨hF', hC'⟩ := attempt_keeps (q := fun F => Signed F ∧ Curved P rule.flat F) (fun _ h => h.1)
      (fun _ _ _ h => h.1.change_keeps hsq hP h.2) ⟨hF, hC⟩ hop
    unfold session
    rw [hF.attempt_recompute hC c hop, ih hF' hC' hops]

/-- Two factored restrictions of one start whose thresholds differ only in the one for solving anew are the same, and
stay so: every change has the same outcome, with what it leaves behind and the fault by which it is refused. Only
under a negative threshold, which `Tolerances.validate` refuses, may a root or a quotient on the way not exist. -/
theorem recompute_agrees {k : ℕ} (P : Mat ℝ n n) (A : Mat ℝ n k) (tol : Tolerances ℝ) (c : ℝ)
    (hP : P.Symmetric) (hk : k ≤ n)
    (hsq : tol.indefinite * tol.indefinite ≤ tol.relativeCurvature * P.scale) :
    ∃ basis, OrthogonalFactor.ofColumns A = .ok basis ∧
      let other := { tol with curvatureRecompute := c }
      let F := ofFactor (tol.rule P) P basis
      ofFactor (other.rule P) P basis = F ∧
        ∀ ops, (0 ≤ tol.indefinite ∨ F.AllDefined (tol.rule P) P ops) →
          F.session (other.rule P) P ops = F.session (tol.rule P) P ops := by
  obtain ⟨basis, hbasis, hW⟩ := OrthogonalFactor.ofColumns_eq_ok (A := A) hk
  refine ⟨basis, hbasis, rfl, fun ops hthreshold => ?_⟩
  have hflat : 0 ≤ (tol.rule P).flat := (mul_self_nonneg _).trans hsq
  have hF : Shaped (ofFactor (tol.rule P) P basis) := shaped_ofFactor hW
  have hdefined : (ofFactor (tol.rule P) P basis).AllDefined (tol.rule P) P ops :=
    hthreshold.elim (fun hind => hF.allDefined hind hflat ops) id
  exact hF.signed.session_recompute hsq hP (curved_ofFactor hP hflat) c hdefined

def saddle : Mat ℝ 3 3 := Mat.ofFn fun i j => if i = j then (if i = 2 then -20 else 1) else 0

theorem get_saddle {i j : ℕ} (hi : i < 3) (hj : j < 3) :
    saddle i j = if i = j then (if i = 2 then -20 else 1) else 0 := Mat.get_ofFn_of_lt _ hi hj

theorem recompute_agrees_saddle :
    let tol := (Tolerances.standard : Tolerances ℝ)
    let other := { tol with curvatureRecompute := -100 }
    let F := ofFactor (tol.rule saddle) saddle OrthogonalFactor.empty
    let ops : List (Change 3) := [.remove none, .add (Vec.ofFn fun _ => 1), .remove (some 0), .remove (some 0)]
    F.session (other.rule saddle) saddle ops = F.session (tol.rule saddle) saddle ops := by
  intro tol other F ops
  have hsymmetric : saddle.Symmetric := by
    intro i hi j hj
    rw [get_saddle hi hj, get_saddle hj hi]
    by_cases hij : i = j
    · rw [hij]
    · rw [if_neg hij, if_neg (Ne.symm hij)]
  have hscale : 1 ≤ saddle.scale := by
    have hcorner := le_maximum 2 (fun j => Scalar.abs (saddle 0 j)) 0 (by decide)
    have hrows := le_maximum 2 (fun i => maximum 2 fun j => Scalar.abs (saddle i j)) 0 (by decide)
    have hone : Scalar.abs (saddle 0 0) = 1 := by
      rw [get_saddle (by decide) (by decide), abs_eq]
      norm_num
    rw [hone] at hcorner
    exact hcorner.trans hrows
  have hsq : tol.indefinite * tol.indefinite ≤ tol.relativeCurvature * saddle.scale := by
    have hrelative : tol.relativeCurvature ≤ tol.relativeCurvature * saddle.scale :=
      le_mul_of_one_le_right (by norm_num [tol, Tolerances.standard]) hscale
    refine le_trans ?_ hrelative
    norm_num [tol, Tolerances.standard]
  obtain ⟨basis, hbasis, -, hall⟩ := recompute_agrees saddle (0 : Mat ℝ 3 0) tol (-100) hsymmetric (by decide) hsq
  obtain rfl : OrthogonalFactor.empty = basis := by simpa [OrthogonalFactor.ofColumns] using hbasis
  exact hall ops (Or.inl (by norm_num [tol, Tolerances.standard]))

end ReducedFactor

end
end ActiveSet
