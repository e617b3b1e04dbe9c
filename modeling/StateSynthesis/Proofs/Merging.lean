import StateSynthesis.Amplitude.Bloch
import StateSynthesis.Proofs.Norm
import StateSynthesis.Proofs.Rotation

/-!
Merging pairs of amplitudes. A pair is its merged amplitude times the column that the two rotations
make of the zero state (`toComplex_ofPair`), also where magnitudes vanish or are negative, so a
vector has the norm of the merged one (`norm₂_entry_ofVector`). Columns have norm one
(`column_norm`), and move by no more than the half angles (`column_distance`).
-/
namespace StateSynthesis

open Complex

/-! ## Columns -/

namespace Bloch

/-- What the rotations by `θ` about `y` and then by `φ` about `z` make of the zero state. -/
noncomputable def column (φ θ : ℝ) (b : Bool) : ℂ := (Axis.z.rotation φ * Axis.y.rotation θ) b false

theorem column_false (φ θ : ℝ) :
    column φ θ false = Real.cos (θ / 2) * exp ((-(φ / 2) : ℝ) * I) := by
  rw [column, Matrix.mul_apply, Fintype.sum_bool, Axis.rotation_z_apply, Axis.rotation_z_apply]
  simp [Axis.rotation, Axis.pauli, mul_comm]

theorem column_true (φ θ : ℝ) :
    column φ θ true = Real.sin (θ / 2) * exp ((φ / 2 : ℝ) * I) := by
  have hI (w : ℂ) : I * w * I = -w := by linear_combination w * I_mul_I
  rw [column, Matrix.mul_apply, Fintype.sum_bool, Axis.rotation_z_apply, Axis.rotation_z_apply]
  simp [Axis.rotation, Axis.pauli, hI, mul_comm]

theorem column_norm (φ θ : ℝ) : ‖column φ θ false‖ ^ 2 + ‖column φ θ true‖ ^ 2 = 1 := by
  simp only [column_false, column_true, norm_mul, norm_exp_ofReal_mul_I, norm_real,
    Real.norm_eq_abs, mul_one, sq_abs]
  exact Real.cos_sq_add_sin_sq _

/-- The law of cosines. -/
theorem norm_sub_polar (r s α β : ℝ) :
    ‖r * exp (α * I) - s * exp (β * I)‖ ^ 2 = r ^ 2 + s ^ 2 - 2 * r * s * Real.cos (α - β) := by
  rw [← normSq_eq_norm_sq, normSq_apply]
  simp only [sub_re, sub_im, re_ofReal_mul, im_ofReal_mul, exp_ofReal_mul_I_re,
    exp_ofReal_mul_I_im, Real.cos_sub]
  linear_combination r ^ 2 * Real.sin_sq_add_cos_sq α + s ^ 2 * Real.sin_sq_add_cos_sq β

theorem two_sub_cos_mul_cos_le (x y : ℝ) :
    2 - 2 * (Real.cos x * Real.cos y) ≤ x ^ 2 + y ^ 2 := by
  have hadd := Real.one_sub_sq_div_two_le_cos (x := x + y)
  have hsub := Real.one_sub_sq_div_two_le_cos (x := x - y)
  rw [Real.cos_add] at hadd
  rw [Real.cos_sub] at hsub
  linarith

theorem column_distance (φ φ' θ θ' : ℝ) :
    ‖column φ θ false - column φ' θ' false‖ ^ 2 + ‖column φ θ true - column φ' θ' true‖ ^ 2 ≤
      ((φ - φ') / 2) ^ 2 + ((θ - θ') / 2) ^ 2 := by
  have hφ : Real.cos (-(φ / 2) - -(φ' / 2)) = Real.cos ((φ - φ') / 2) := by
    rw [← Real.cos_neg]
    ring_nf
  have hφ' : Real.cos (φ / 2 - φ' / 2) = Real.cos ((φ - φ') / 2) := by ring_nf
  have hθ : Real.cos ((θ - θ') / 2) = Real.cos (θ / 2) * Real.cos (θ' / 2) +
      Real.sin (θ / 2) * Real.sin (θ' / 2) := by rw [sub_div, Real.cos_sub]
  rw [column_false, column_false, column_true, column_true, norm_sub_polar, norm_sub_polar, hφ,
    hφ']
  calc _ = 2 - 2 * (Real.cos ((φ - φ') / 2) * Real.cos ((θ - θ') / 2)) := by
        rw [hθ]
        linear_combination Real.sin_sq_add_cos_sq (θ / 2) + Real.sin_sq_add_cos_sq (θ' / 2)
    _ ≤ _ := two_sub_cos_mul_cos_le _ _

/-! ## Pairs -/

theorem toComplex_ofPair (a b : Amplitude ℝ) :
    a.toComplex = (ofPair a b).merged.toComplex *
        column (ofPair a b).phi (ofPair a b).theta false ∧
      b.toComplex = (ofPair a b).merged.toComplex *
        column (ofPair a b).phi (ofPair a b).theta true := by
  -- the magnitudes as a point of the plane, of which `theta` is twice the argument
  set z : ℂ := ⟨a.magnitude, b.magnitude⟩ with hz
  have hr : magnitude a.magnitude b.magnitude = ‖z‖ := by
    simp [magnitude, Complex.norm_eq_sqrt_sq_add_sq, hz]
  have ht : thetaOf a.magnitude b.magnitude / 2 = arg z := by simp [thetaOf, hz]
  have hp : phase a.phase b.phase = (a.phase + b.phase) / 2 := half_real _
  have hfalse : (a.phase + b.phase) / 2 + -((b.phase - a.phase) / 2) = a.phase := by ring
  have htrue : (a.phase + b.phase) / 2 + (b.phase - a.phase) / 2 = b.phase := by ring
  simp only [ofPair, Amplitude.toComplex, column_false, column_true, hr, ht, hp, phiOf]
  constructor
  · calc (a.magnitude : ℂ) * exp (a.phase * I)
        = (‖z‖ * Real.cos (arg z) : ℝ) *
            exp (((a.phase + b.phase) / 2 + -((b.phase - a.phase) / 2) : ℝ) * I) := by
          rw [norm_mul_cos_arg, hfalse]
      _ = _ := by
          rw [exp_add_mul_I, ofReal_mul]
          ring
  · calc (b.magnitude : ℂ) * exp (b.phase * I)
        = (‖z‖ * Real.sin (arg z) : ℝ) *
            exp (((a.phase + b.phase) / 2 + (b.phase - a.phase) / 2 : ℝ) * I) := by
          rw [norm_mul_sin_arg, htrue]
      _ = _ := by
          rw [exp_add_mul_I, ofReal_mul]
          ring

end Bloch

/-! ## Vectors -/

namespace Amplitude

/-- The entries of a vector, with zeros behind its end. -/
noncomputable def entry (as : List (Amplitude ℝ)) (j : ℕ) : ℂ := (as.getD j zero).toComplex

theorem norm_toComplex (a : Amplitude ℝ) : ‖a.toComplex‖ = |a.magnitude| := by
  rw [toComplex, norm_mul, norm_exp_ofReal_mul_I, mul_one, norm_real, Real.norm_eq_abs]

/-- Where no magnitude exceeds the tolerance, no entry does. -/
theorem norm_entry_le {τ : ℝ} (hτ : 0 ≤ τ) {as : List (Amplitude ℝ)}
    (h : as.any (fun a => Tolerance.exceeds τ a.magnitude) = false) (j : ℕ) :
    ‖entry as j‖ ≤ τ := by
  rw [entry, norm_toComplex]
  rcases Nat.lt_or_ge j as.length with hj | hj
  · have hle := List.any_eq_false.mp h _ (List.getElem_mem hj)
    rw [List.getD_eq_getElem _ _ hj]
    exact not_lt.mp fun hlt => hle ((Tolerance.exceeds_real _ _).mpr hlt)
  · rw [List.getD_eq_default _ _ hj]
    simpa [zero] using hτ

end Amplitude

namespace Bloch

open Amplitude

theorem getElem?_ofVector {as : List (Amplitude ℝ)} {j : ℕ} (h : 2 * j + 1 < as.length) :
    (ofVector as)[j]? =
      some (ofPair (as.getD (2 * j) Amplitude.zero) (as.getD (2 * j + 1) Amplitude.zero)) := by
  fun_induction ofVector as generalizing j with
  | case1 a b as ih =>
    cases j with
    | zero => rfl
    | succ j =>
      simp only [List.length_cons] at h
      simpa [Nat.mul_succ] using ih (j := j) (by omega)
  | case2 as has =>
    rcases as with _ | ⟨a, _ | ⟨b, as⟩⟩
    · simp at h
    · simp at h
    · exact absurd rfl (has a b as)

theorem merged_nonneg (as : List (Amplitude ℝ)) :
    ∀ a ∈ (ofVector as).map merged, 0 ≤ a.magnitude := by
  fun_induction ofVector as with
  | case1 a b as ih =>
    intro c hc
    rcases List.mem_cons.mp hc with rfl | hc
    · exact Real.sqrt_nonneg _
    · exact ih c hc
  | case2 => simp

variable {as : List (Amplitude ℝ)} {N j : ℕ}

theorem getD_map_ofVector {β : Type} (f : Bloch ℝ → β) (d : β) (h : as.length = 2 * N)
    (hj : j < N) : ((ofVector as).map f).getD j d =
      f (ofPair (as.getD (2 * j) Amplitude.zero) (as.getD (2 * j + 1) Amplitude.zero)) := by
  rw [List.getD_eq_getElem?_getD, List.getElem?_map, getElem?_ofVector (by omega)]
  rfl

/-- Every entry is a merged one times an entry of a column. -/
theorem entry_eq_paired (h : as.length = 2 * N) {i : ℕ} (hi : i < 2 * N) :
    entry as i = paired (entry ((ofVector as).map merged)) (fun j =>
      column (((ofVector as).map phi).getD j 0) (((ofVector as).map theta).getD j 0)) i := by
  have hj : i / 2 < N := by omega
  obtain ⟨hfalse, htrue⟩ := toComplex_ofPair (as.getD (2 * (i / 2)) Amplitude.zero)
    (as.getD (2 * (i / 2) + 1) Amplitude.zero)
  simp only [paired, getD_map_ofVector phi 0 h hj, getD_map_ofVector theta 0 h hj, entry,
    getD_map_ofVector merged _ h hj]
  rcases Nat.mod_two_eq_zero_or_one i with hm | hm
  · have he : 2 * (i / 2) = i := by omega
    simp only [he, hm, zero_ne_one, decide_false] at hfalse ⊢
    exact hfalse
  · have he : 2 * (i / 2) + 1 = i := by omega
    simp only [he, hm, decide_true] at htrue ⊢
    exact htrue

theorem norm₂_entry_ofVector (h : as.length = 2 * N) :
    norm₂ (2 * N) (entry as) = norm₂ N (entry ((ofVector as).map merged)) := by
  rw [norm₂_congr fun i hi => entry_eq_paired h hi]
  exact norm₂_paired_eq _ fun j _ => column_norm _ _

end Bloch

end StateSynthesis
