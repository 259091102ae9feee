import ActiveSet.Proofs.Definite
import ActiveSet.Proofs.Hessian

/-! The plain restriction and the factored one agree. They end with different directions, one turned by reflections and
the other by rotations and in reverse; but both sets span what the working columns leave, so the projectors are the
same, and both matrices are `P` between projected vectors. -/

namespace ActiveSet

noncomputable section
open Exact

variable {n : ℕ}

namespace OrthogonalFactor

variable {F G : OrthogonalFactor ℝ n} {W : List (Vec ℝ n)} {i j : ℕ}

/-- Entry `(i, j)` of the projector onto what the working columns leave. -/
def projector (F : OrthogonalFactor ℝ n) (i j : ℕ) : ℝ := dot F.nullity (fun t => F.free t i) fun t => F.free t j

theorem Factors.dot_column_free (hF : Factors F W) {t : ℕ} (ht : t < F.nullity) : ∀ a ∈ W, dot n a (F.free t) = 0 := by
  intro a ha
  rw [dot_comm]
  exact hF.dot_free (Nat.le_add_right ..) (Nat.add_lt_of_lt_sub' ht) ha

/-- Each free direction of one factorization is a combination of those of the other. -/
theorem Factors.projector_eq (hF : Factors F W) (hG : Factors G W) (hW : Independent W) (hi : i < n) (hj : j < n) :
    F.projector i j = G.projector i j := by
  have hFN := hF.independent_iff.1 hW
  have hGN := hG.independent_iff.1 hW
  have hright : ∀ s < G.nullity,
      G.free s j = dot F.nullity (fun t => dot n (F.free t) (G.free s)) fun t => F.free t j :=
    fun s hs => (hF.eq_free hFN (hG.dot_column_free hs) hj).trans (dot_comm ..)
  have hleft : ∀ t < F.nullity,
      dot G.nullity (fun s => dot n (F.free t) (G.free s)) (fun s => G.free s i) = F.free t i := by
    intro t ht
    rw [hG.eq_free hGN (hF.dot_column_free ht) hi, dot_comm]
    exact dot_congr (fun _ _ => rfl) fun s _ => dot_comm ..
  unfold projector
  rw [dot_congr (fun _ _ => rfl) hright, dot_transpose]
  exact dot_congr (fun t ht => (hleft t ht).symm) fun _ _ => rfl

theorem Factors.projector_add (hF : Factors F W) (hi : i < n) (hj : j < n) :
    dot F.size (F.q i) (F.q j) + F.projector i j = if i = j then 1 else 0 := by
  rw [← hF.orthogonal.rows hi hj, hF.split]
  rfl

theorem Factors.projector_eq_of_working (hF : Factors F W) (hG : Factors G W)
    (hq : ∀ i < n, ∀ t < F.size, F.q i t = G.q i t) (hi : i < n) (hj : j < n) : F.projector i j = G.projector i j := by
  have hF' := hF.projector_add hi hj
  have hG' := hG.projector_add hi hj
  rw [hG.size, ← hF.size, ← dot_congr (hq i hi) (hq j hj)] at hG'
  linarith

end OrthogonalFactor

/-- `P` between two projected unit vectors. -/
theorem Mat.form_projected (P : Mat ℝ n n) (k : ℕ) (z : ℕ → ℕ → ℝ) (i j : ℕ) :
    P.form (fun r => dot k (fun a => z a r) fun a => z a i) (fun r => dot k (fun b => z b r) fun b => z b j) =
      dot k (fun a => z a i) fun a => dot k (fun b => P.form (z a) (z b)) fun b => z b j := by
  rw [form_dot_left, dot_comm]
  exact dot_congr (fun _ _ => rfl) fun a _ => form_dot_right ..

namespace ReducedHessian

variable {P : Mat ℝ n n} {H : ReducedHessian ℝ n} {W : List (Vec ℝ n)}

theorem Restricts.dot_projected (hH : Restricts P H W) (i j : ℕ) :
    dot H.size (fun a => H.z i a) (fun a => dot H.size (H.get a) fun b => H.z j b) =
      P.form (fun r => H.basis.projector r i) fun r => H.basis.projector r j := by
  refine Eq.trans ?_ (P.form_projected H.size H.basis.free i j).symm
  exact dot_congr (fun _ _ => rfl) fun a ha => dot_congr (fun b hb => hH.entries a ha b hb) fun _ _ => rfl

end ReducedHessian

namespace ReducedFactor

variable {P : Mat ℝ n n} {F G : ReducedFactor ℝ n} {rule : CurvatureRule ℝ} {W : List (Vec ℝ n)}

/-- The factored columns are `W` and all directions that they leave are factored. -/
structure Unmasked (P : Mat ℝ n n) (flat : ℝ) (F : ReducedFactor ℝ n) (W : List (Vec ℝ n)) : Prop where
  signed : Signed F
  curved : Curved P flat F
  artificial : F.artificial = 0
  factors : F.basis.Factors W

theorem artificial_add_le {a : Vec ℝ n} (h : (F.add rule P a).result = .ok ()) :
    (F.add rule P a).state.artificial ≤ F.artificial := by
  obtain ⟨basis, -, ⟨-, hs⟩ | ⟨-, hs⟩ | ⟨-, G, hG, hs⟩⟩ := add_cases h
  · rw [hs]
    exact Nat.sub_le ..
  · rw [hs]
    exact le_rfl
  · rw [hs]
    rcases hG with rfl | hG
    · exact le_rfl
    · obtain ⟨w, -, rfl⟩ := resolve_eq_ok hG
      exact le_rfl

theorem Unmasked.size_eq {flat : ℝ} (hF : Unmasked P flat F W) : F.size = F.basis.nullity := by
  have hcount := hF.signed.count
  rw [hF.artificial] at hcount
  change F.size = n - F.basis.size
  omega

theorem Unmasked.z_eq {flat : ℝ} (hF : Unmasked P flat F W) (i j : ℕ) : F.z i j = F.basis.free j i := by
  unfold z offset OrthogonalFactor.free
  rw [hF.artificial, Nat.add_zero]

theorem Unmasked.dot_z {flat : ℝ} (hF : Unmasked P flat F W) (i j : ℕ) :
    dot F.size (fun a => F.z i a) (fun a => F.z j a) = F.basis.projector i j := by
  unfold OrthogonalFactor.projector
  rw [← hF.size_eq]
  exact dot_congr (fun a _ => hF.z_eq i a) fun a _ => hF.z_eq j a

theorem Unmasked.dot_projected {flat : ℝ} (hF : Unmasked P flat F W) (hlast : F.size = 0 ∨ F.d (F.size - 1) ≠ 0)
    (i j : ℕ) : dot F.size (fun a => F.z i (F.size - 1 - a)) (fun a => dot F.size (F.product a) fun b =>
      F.z j (F.size - 1 - b)) = P.form (fun r => F.basis.projector r i) fun r => F.basis.projector r j := by
  have hprojector : ∀ r s, dot F.size (fun a => F.z r (F.size - 1 - a)) (fun a => F.z s (F.size - 1 - a)) =
      F.basis.projector r s := by
    intro r s
    exact (dot_reverse F.size (fun a => F.z r a) fun a => F.z s a).trans (hF.dot_z r s)
  have hproduct : ∀ a < F.size, ∀ b < F.size,
      F.product a b = P.form (fun r => F.z r (F.size - 1 - a)) fun r => F.z r (F.size - 1 - b) := by
    intro a ha b hb
    have hcorner : ∀ l, l + 1 = F.size → F.d l ≠ 0 := fun l hl => by
      rw [← hl] at hlast
      exact hlast.resolve_left l.succ_ne_zero
    rw [hF.curved.exactly hcorner a ha b hb]
    exact Mat.form_congr (fun r _ => (z_eq_reversed hF.signed.count ha r).symm)
      fun r _ => (z_eq_reversed hF.signed.count hb r).symm
  have hform := P.form_projected F.size (fun a r => F.z r (F.size - 1 - a)) i j
  rw [← Mat.form_congr (fun r _ => hprojector r i) fun r _ => hprojector r j, hform]
  exact dot_congr (fun _ _ => rfl) fun a ha => dot_congr (fun b hb => hproduct a ha b hb) fun _ _ => rfl

def Change.Defined (F : ReducedFactor ℝ n) : Change n → Prop
  | .add _ => ∀ i, i + 1 < F.size → 0 ≤ F.d i
  | .remove _ => ∀ i < F.size, F.d i ≠ 0

/-- Those of a sequence of changes exist, up to the first fault. -/
def Defined (rule : CurvatureRule ℝ) (P : Mat ℝ n n) : ReducedFactor ℝ n → List (Change n) → Prop
  | _, [] => True
  | F, op :: ops => ∀ G, change rule P F op = .ok G → op.Defined F ∧ Defined rule P G ops

theorem Shaped.defined (hF : Shaped F) (hind : 0 ≤ rule.indefinite) (hflat : 0 ≤ rule.flat) (ops : List (Change n)) :
    F.Defined rule P ops := by
  induction ops generalizing F with
  | nil => trivial
  | cons op ops ih =>
    intro G h
    cases op with
    | add a =>
      obtain ⟨u, hadd, rfl⟩ := map_eq_ok.1 h
      exact ⟨fun i hi => (hF.positive i hi).le, ih (hF.add hflat hadd)⟩
    | remove idx =>
      obtain ⟨u, hremove, rfl⟩ := map_eq_ok.1 h
      have hpositive := hF.positive_of_lt hind (remove_cases hremove).1
      exact ⟨fun i hi => (hpositive i hi).ne', ih (hF.remove hind hremove)⟩

/-- Where its roots and quotients exist a change keeps the factorization, whatever the signs in `D`. -/
theorem Signed.change_keeps (hsq : rule.indefinite * rule.indefinite ≤ rule.flat)
    (hP : P.Symmetric) (hF : Signed F) (hC : Curved P rule.flat F) {op : Change n}
    (hdefined : op.Defined F) (h : change rule P F op = .ok G) : Signed G ∧ Curved P rule.flat G := by
  have hflat : 0 ≤ rule.flat := (mul_self_nonneg _).trans hsq
  cases op with
  | add a =>
    obtain ⟨u, hadd, rfl⟩ := map_eq_ok.1 h
    have hshaped := hF.shaped hdefined
    exact ⟨(hshaped.add hflat hadd).signed, hC.add hshaped hP hsq hadd⟩
  | remove idx =>
    obtain ⟨u, hremove, rfl⟩ := map_eq_ok.1 h
    exact ⟨hF.remove hdefined hremove, hF.curved_remove hC hP hdefined hflat hremove⟩

def factored : ReducedHessian.Change n → Change n
  | .add a => .add a
  | .remove idx => .remove (some idx)

theorem Unmasked.change (hsq : rule.indefinite * rule.indefinite ≤ rule.flat) (hP : P.Symmetric)
    (hF : Unmasked P rule.flat F W) {op : ReducedHessian.Change n} (hdefined : (factored op).Defined F)
    (h : change rule P F (factored op) = .ok G) : Unmasked P rule.flat G (op.columns W) := by
  obtain ⟨hsigned, hcurved⟩ := hF.signed.change_keeps hsq hP hF.curved hdefined h
  have hart := hF.artificial
  cases op with
  | add a =>
    obtain ⟨u, hadd, rfl⟩ := map_eq_ok.1 h
    have hle := artificial_add_le hadd
    exact ⟨hsigned, hcurved, by omega, hF.factors.append (basis_add hadd)⟩
  | remove idx =>
    obtain ⟨u, hremove, rfl⟩ := map_eq_ok.1 h
    have hle := artificial_remove_le rule P F (some idx)
    obtain ⟨i, hi, hcolumn, hbasis⟩ := basis_remove_of_column hart hremove
    obtain rfl := Option.some.inj hi
    refine ⟨hsigned, hcurved, by omega, ?_⟩
    rw [hbasis]
    exact hF.factors.remove hcolumn

theorem Unmasked.changes (hsq : rule.indefinite * rule.indefinite ≤ rule.flat) (hP : P.Symmetric)
    (hF : Unmasked P rule.flat F W) {ops : List (ReducedHessian.Change n)}
    (hdefined : F.Defined rule P (ops.map factored)) (h : F.changes rule P (ops.map factored) = .ok G) :
    Unmasked P rule.flat G (ops.foldl ReducedHessian.Change.columns W) := by
  induction ops generalizing F W with
  | nil =>
    obtain rfl := Except.ok.inj h
    exact hF
  | cons op ops ih =>
    obtain ⟨F', hchange, hrest⟩ := bind_eq_ok.1 h
    obtain ⟨hop, hops⟩ := hdefined F' hchange
    exact ih (hF.change hsq hP hop hchange) hops hrest

/-- The plain and the factored restriction of one start, changed alike. If nothing is refused, all directions are
factored at the start, the columns are independent at the end and `D` does not end in zero, then as many directions are
free in both, the projectors onto them are the same, and so is `P` between projected vectors. Only under a negative
threshold, which `Tolerances.validate` refuses, may a root or a quotient on the way not exist. -/
theorem restrictions_agree {k : ℕ} (P : Mat ℝ n n) (A : Mat ℝ n k) (tol : Tolerances ℝ)
    (hP : P.Symmetric) (hk : k ≤ n)
    (hsq : tol.indefinite * tol.indefinite ≤ tol.relativeCurvature * P.scale) :
    ∃ basis, OrthogonalFactor.ofColumns A = .ok basis ∧
      ((ofFactor (tol.rule P) P basis).artificial = 0 → ∀ ops F H,
        (0 ≤ tol.indefinite ∨ (ofFactor (tol.rule P) P basis).Defined (tol.rule P) P (ops.map factored)) →
        (ofFactor (tol.rule P) P basis).changes (tol.rule P) P (ops.map factored) = .ok F →
        (ReducedHessian.ofFactor P basis).changes P ops = .ok H →
        (ops ≠ [] → Independent (ops.foldl ReducedHessian.Change.columns A.cols)) →
        (F.size = 0 ∨ F.d (F.size - 1) ≠ 0) →
        H.size = F.size ∧ H.basis.size = F.basis.size ∧ ∀ i < n, ∀ j < n,
          dot H.size (fun a => H.z i a) (fun a => H.z j a) = dot F.size (fun a => F.z i a) (fun a => F.z j a) ∧
          dot H.size (fun a => H.z i a) (fun a => dot H.size (H.get a) fun b => H.z j b) =
            dot F.size (fun a => F.z i (F.size - 1 - a)) fun a =>
              dot F.size (fun b => dot F.size (fun l => F.u l a) fun l => F.d l * F.u l b) fun b =>
                F.z j (F.size - 1 - b)) := by
  obtain ⟨basis, hbasis, hW⟩ := OrthogonalFactor.ofColumns_eq_ok (A := A) hk
  refine ⟨basis, hbasis, fun hart ops F H hthreshold hchanges hchangesH hindependent hlast => ?_⟩
  set rule := tol.rule P
  have hflat : 0 ≤ rule.flat := (mul_self_nonneg _).trans hsq
  have hshaped : Shaped (ofFactor rule P basis) := shaped_ofFactor hW
  have hdefined : (ofFactor rule P basis).Defined rule P (ops.map factored) :=
    hthreshold.elim (fun hind => hshaped.defined hind hflat _) id
  have hstart : Unmasked P rule.flat (ofFactor rule P basis) A.cols :=
    ⟨hshaped.signed, curved_ofFactor hP hflat, hart, factors_arrange hW (truncated_pivots rule P basis)⟩
  have hF := hstart.changes hsq hP hdefined hchanges
  have hH := (ReducedHessian.restricts_ofFactor hP hW).changes hP hchangesH
  have hsize : H.basis.size = F.basis.size := hH.factors.size.trans hF.factors.size.symm
  have hfree : H.size = F.size := by
    rw [hF.size_eq]
    exact congrArg (n - ·) hsize
  have hprojector : ∀ i < n, ∀ j < n, H.basis.projector i j = F.basis.projector i j := by
    intro i hi j hj
    cases ops with
    | nil =>
      -- the start only puts the free directions in another order
      obtain rfl := Except.ok.inj hchanges
      obtain rfl := Except.ok.inj hchangesH
      refine hH.factors.projector_eq_of_working hF.factors (fun r hr t ht => ?_) hi hj
      exact (arrange_working hr (by have := hW.le; change t < basis.size at ht; omega) ht).symm
    | cons op rest => exact hH.factors.projector_eq hF.factors (hindependent (by simp)) hi hj
  refine ⟨hfree, hsize, fun i hi j hj => ⟨?_, ?_⟩⟩
  · have hprojected := hprojector i hi j hj
    unfold OrthogonalFactor.projector at hprojected
    rw [← hF.size_eq] at hprojected
    refine hprojected.trans ?_
    exact dot_congr (fun a _ => (hF.z_eq i a).symm) fun a _ => (hF.z_eq j a).symm
  · rw [hH.dot_projected i j, Mat.form_congr (fun r hr => hprojector r hr i hi) fun r hr => hprojector r hr j hj]
    exact (hF.dot_projected hlast i j).symm

def bowl : Mat ℝ 2 2 := Mat.identity

theorem scale_bowl : bowl.scale = 1 := by
  have hget : ∀ i < 2, ∀ j < 2, bowl i j = if i = j then (1 : ℝ) else 0 := fun i hi j hj => Mat.get_identity hi hj
  simp [Mat.scale, maximum, hget]

theorem strong_bowl : Strong bowl (Tolerances.standard.rule bowl) 1 := by
  have hflat : (Tolerances.standard.rule bowl).flat = 1e-12 := by
    change Tolerances.standard.relativeCurvature * bowl.scale = 1e-12
    rw [scale_bowl, mul_one]
    norm_num [Tolerances.standard]
  have hindefinite : (Tolerances.standard.rule bowl).indefinite = 1e-12 := by
    change Tolerances.standard.indefinite = (1e-12 : ℝ)
    norm_num [Tolerances.standard]
  have hget : ∀ i < 2, ∀ j < 2, bowl i j = if j = i then (1 : ℝ) else 0 := fun i hi j hj =>
    (Mat.get_identity hi hj).trans (if_congr eq_comm rfl rfl)
  refine ⟨fun i hi j hj => ?_, fun v => ?_, ?_, ?_, ?_, ?_, ?_⟩
  · rw [hget i hi j hj, hget j hj i hi]
    exact if_congr eq_comm rfl rfl
  · rw [one_mul]
    refine le_of_eq (dot_congr (fun _ _ => rfl) fun i hi => ?_)
    rw [dot_congr (hget i hi) fun _ _ => rfl, dot_comm, dot_unit hi]
  all_goals
    norm_num [hflat, hindefinite]

def oblique : Vec ℝ 2 := Vec.ofFn fun _ => 1

/-- With the direction `(1, 1)` taken out the factored restriction is still definite. -/
theorem add_oblique :
    let rule := (Tolerances.standard : Tolerances ℝ).rule bowl
    let F := (ofFactor rule bowl OrthogonalFactor.empty).add rule bowl oblique
    F.result = .ok () ∧ Shaped F.state ∧ Definite bowl rule F.state ∧ F.state.basis.size = 1 := by
  intro rule F
  have hstrong : Strong bowl rule 1 := strong_bowl
  have hF : Shaped (ofFactor rule bowl OrthogonalFactor.empty) := shaped_ofFactor OrthogonalFactor.factors_empty
  have hD := definite_ofFactor hstrong OrthogonalFactor.factors_empty
  have hadd : F.result = .ok () := hF.result_add_of_lt (by decide) oblique
  refine ⟨hadd, hF.add hstrong.flat_nonneg hadd, hD.add hF hstrong hadd, ?_⟩
  obtain ⟨-, hbasis⟩ := OrthogonalFactor.append_eq_ok (basis_add hadd)
  exact congrArg OrthogonalFactor.size hbasis

theorem exists_factored_bowl : ∃ F,
    (ofFactor (Tolerances.standard.rule bowl) bowl OrthogonalFactor.empty).changes (Tolerances.standard.rule bowl) bowl
      [.add oblique, .remove (some 0)] = .ok F ∧ F.size = 2 ∧ F.d (F.size - 1) ≠ 0 := by
  have hstrong := strong_bowl
  obtain ⟨hadd, hF, hD, hone⟩ := add_oblique
  set rule := (Tolerances.standard : Tolerances ℝ).rule bowl
  set F := ((ofFactor rule bowl OrthogonalFactor.empty).add rule bowl oblique).state
  have hremove : (F.remove rule bowl (some 0)).result = .ok () :=
    hF.result_remove_column hD.artificial (or_iff_not_imp_left.2 hD.last) (i := 0) (by omega)
  have hD' := hD.remove hF hstrong hremove
  have hsize : (F.remove rule bowl (some 0)).state.size = 2 := by
    obtain ⟨i, hi, hcolumn, hbasis⟩ := basis_remove_of_column hD.artificial hremove
    obtain ⟨-, -, herase⟩ := OrthogonalFactor.remove_eq_ok hcolumn
    have hnone : (F.remove rule bowl (some 0)).state.basis.size = 0 := by
      rw [hbasis, herase]
      change F.basis.size - 1 = 0
      omega
    have hcount := (hF.remove hstrong.indefinite_nonneg hremove).count
    rwa [hD'.artificial, hnone] at hcount
  refine ⟨_, bind_eq_ok.2 ⟨F, map_eq_ok.2 ⟨(), hadd, rfl⟩, bind_eq_ok.2 ⟨_, map_eq_ok.2 ⟨(), hremove, rfl⟩, rfl⟩⟩,
    hsize, ?_⟩
  exact (hstrong.indefinite_nonneg.trans_lt (hD'.last (by omega))).ne'

theorem exists_restricted_bowl : ∃ H, (ReducedHessian.ofFactor bowl OrthogonalFactor.empty).changes bowl
    [.add oblique, .remove 0] = .ok H := by
  obtain ⟨H, hadd, hone⟩ := ReducedHessian.exists_add (H := ReducedHessian.ofFactor bowl OrthogonalFactor.empty)
    (by decide) oblique
  have hremove : (H.remove bowl 0).result = .ok () := ReducedHessian.result_remove (i := 0) (by rw [hone]; decide)
  exact ⟨_, bind_eq_ok.2 ⟨H, hadd, bind_eq_ok.2 ⟨_, map_eq_ok.2 ⟨(), hremove, rfl⟩, rfl⟩⟩⟩

theorem restrictions_agree_bowl : ∃ F H,
    (ofFactor (Tolerances.standard.rule bowl) bowl OrthogonalFactor.empty).changes (Tolerances.standard.rule bowl) bowl
      [.add oblique, .remove (some 0)] = .ok F ∧
    (ReducedHessian.ofFactor bowl OrthogonalFactor.empty).changes bowl [.add oblique, .remove 0] = .ok H ∧
    H.size = 2 ∧ F.size = 2 ∧ ∀ i < 2, ∀ j < 2,
      dot 2 (fun a => H.z i a) (fun a => dot 2 (H.get a) fun b => H.z j b) =
        dot 2 (fun a => F.z i (1 - a)) fun a =>
          dot 2 (fun b => dot 2 (fun l => F.u l a) fun l => F.d l * F.u l b) fun b => F.z j (1 - b) := by
  have hstrong := strong_bowl
  have hsq : (Tolerances.standard : Tolerances ℝ).indefinite * (Tolerances.standard : Tolerances ℝ).indefinite ≤
      (Tolerances.standard : Tolerances ℝ).relativeCurvature * bowl.scale := by
    rw [scale_bowl]
    norm_num [Tolerances.standard]
  obtain ⟨basis, hbasis, hall⟩ := restrictions_agree bowl (0 : Mat ℝ 2 0) Tolerances.standard hstrong.symmetric
    (by decide) hsq
  obtain rfl : OrthogonalFactor.empty = basis := by simpa [OrthogonalFactor.ofColumns] using hbasis
  obtain ⟨F, hF, htwo, hlast⟩ := exists_factored_bowl
  obtain ⟨H, hH⟩ := exists_restricted_bowl
  obtain ⟨hsize, -, hagree⟩ := hall (definite_ofFactor hstrong OrthogonalFactor.factors_empty).artificial
    [.add oblique, .remove 0] F H (Or.inl hstrong.indefinite_nonneg) hF hH
    (fun _ => independent_iff.2 fun c _ j hj => absurd hj (Nat.not_lt_zero j)) (Or.inr hlast)
  refine ⟨F, H, hF, hH, hsize.trans htwo, htwo, fun i hi j hj => ?_⟩
  have hij := (hagree i hi j hj).2
  rwa [hsize, htwo] at hij

end ReducedFactor

end
end ActiveSet
