import Mathlib

/-!
The 2-norm of the first `N` entries of a sequence of complex numbers. It is a seminorm
(`norm₂_add_le`, `norm₂_mul_left`). A sequence that comes in pairs has the norm of the sequence of
factors if the pairs have norm one (`norm₂_paired_eq`).
-/
namespace StateSynthesis

noncomputable def norm₂ (N : ℕ) (f : ℕ → ℂ) : ℝ := √(∑ j ∈ Finset.range N, ‖f j‖ ^ 2)

theorem norm₂_nonneg (N : ℕ) (f : ℕ → ℂ) : 0 ≤ norm₂ N f := Real.sqrt_nonneg _

theorem sum_sq_nonneg (N : ℕ) (f : ℕ → ℂ) : 0 ≤ ∑ j ∈ Finset.range N, ‖f j‖ ^ 2 :=
  Finset.sum_nonneg fun _ _ => sq_nonneg _

theorem sq_norm₂ (N : ℕ) (f : ℕ → ℂ) : norm₂ N f ^ 2 = ∑ j ∈ Finset.range N, ‖f j‖ ^ 2 :=
  Real.sq_sqrt (sum_sq_nonneg N f)

theorem norm₂_congr {N : ℕ} {f g : ℕ → ℂ} (h : ∀ j < N, f j = g j) : norm₂ N f = norm₂ N g := by
  unfold norm₂
  rw [Finset.sum_congr rfl fun j hj => by rw [h j (Finset.mem_range.mp hj)]]

theorem norm₂_one (f : ℕ → ℂ) : norm₂ 1 f = ‖f 0‖ := by
  rw [norm₂, Finset.sum_range_one, Real.sqrt_sq (norm_nonneg _)]

/-- The vector of the first `N` entries. -/
theorem norm₂_eq_norm (N : ℕ) (f : ℕ → ℂ) :
    norm₂ N f = ‖WithLp.toLp 2 fun j : Fin N => f j‖ := by
  rw [EuclideanSpace.norm_eq, norm₂, Finset.sum_range]

theorem norm₂_add_le (N : ℕ) (f g : ℕ → ℂ) :
    norm₂ N (fun j => f j + g j) ≤ norm₂ N f + norm₂ N g := by
  rw [norm₂_eq_norm, norm₂_eq_norm, norm₂_eq_norm]
  exact norm_add_le (WithLp.toLp 2 fun j : Fin N => f j) (WithLp.toLp 2 fun j : Fin N => g j)

theorem norm₂_mul_left (N : ℕ) (z : ℂ) (f : ℕ → ℂ) :
    norm₂ N (fun j => z * f j) = ‖z‖ * norm₂ N f := by
  have hterm (j : ℕ) : ‖z * f j‖ ^ 2 = ‖z‖ ^ 2 * ‖f j‖ ^ 2 := by rw [norm_mul, mul_pow]
  simp only [norm₂, hterm, ← Finset.mul_sum]
  rw [Real.sqrt_mul (sq_nonneg _), Real.sqrt_sq (norm_nonneg _)]

theorem norm₂_sub_le (N : ℕ) (f g : ℕ → ℂ) :
    norm₂ N (fun j => f j - g j) ≤ norm₂ N f + norm₂ N g := by
  have hadd := norm₂_add_le N f fun j => -1 * g j
  rw [norm₂_mul_left, norm_neg, norm_one, one_mul] at hadd
  simpa only [neg_one_mul, ← sub_eq_add_neg] using hadd

theorem norm₂_le_sqrt_mul {N : ℕ} {f : ℕ → ℂ} {τ : ℝ} (h : ∀ j < N, ‖f j‖ ≤ τ) (hτ : 0 ≤ τ) :
    norm₂ N f ≤ √N * τ := by
  have hsum : ∑ j ∈ Finset.range N, ‖f j‖ ^ 2 ≤ N * τ ^ 2 := by
    have hle := Finset.sum_le_card_nsmul (Finset.range N) (fun j => ‖f j‖ ^ 2) (τ ^ 2)
      fun j hj => pow_le_pow_left₀ (norm_nonneg _) (h j (Finset.mem_range.mp hj)) 2
    rwa [Finset.card_range, nsmul_eq_mul] at hle
  refine Real.sqrt_le_iff.mpr ⟨by positivity, hsum.trans_eq ?_⟩
  rw [mul_pow, Real.sq_sqrt (Nat.cast_nonneg N)]

theorem norm₂_le_of_le {N : ℕ} {f : ℕ → ℂ} {τ : ℝ} (h : ∀ j < N, ‖f j‖ ≤ τ) (hτ : 0 ≤ τ) :
    norm₂ N f ≤ N * τ := by
  have hN : (N : ℝ) ≤ (N : ℝ) ^ 2 := by exact_mod_cast Nat.le_self_pow two_ne_zero N
  have hsqrt : √N ≤ (N : ℝ) := Real.sqrt_le_iff.mpr ⟨Nat.cast_nonneg N, hN⟩
  exact (norm₂_le_sqrt_mul h hτ).trans (mul_le_mul_of_nonneg_right hsqrt hτ)

theorem norm₂_unit {N : ℕ} (hN : 0 < N) : norm₂ N (fun j => if j = 0 then 1 else 0) = 1 := by
  have hterm (j : ℕ) : ‖(if j = 0 then 1 else 0 : ℂ)‖ ^ 2 = if 0 = j then (1 : ℝ) else 0 := by
    rcases Nat.eq_zero_or_pos j with rfl | hj
    · simp
    · simp [hj.ne, hj.ne']
  simp only [norm₂, hterm, Finset.sum_ite_eq, Finset.mem_range, hN, ↓reduceIte, Real.sqrt_one]

theorem norm₂_eq_zero {N : ℕ} {f : ℕ → ℂ} : norm₂ N f = 0 ↔ ∀ j < N, f j = 0 := by
  rw [norm₂, Real.sqrt_eq_zero (sum_sq_nonneg N f),
    Finset.sum_eq_zero_iff_of_nonneg fun _ _ => sq_nonneg _]
  simp

/-! ## Pairs -/

theorem sum_range_pairs (N : ℕ) (f : ℕ → ℝ) :
    ∑ i ∈ Finset.range (2 * N), f i = ∑ j ∈ Finset.range N, (f (2 * j) + f (2 * j + 1)) := by
  induction N with
  | zero => rfl
  | succ N ih =>
    rw [Nat.mul_succ, Finset.sum_range_succ, Finset.sum_range_succ, ih, Finset.sum_range_succ]
    ring

/-- The sequence whose entries `2 j` and `2 j + 1` are `g j` times the pair `c j`. -/
noncomputable def paired (g : ℕ → ℂ) (c : ℕ → Bool → ℂ) (i : ℕ) : ℂ :=
  g (i / 2) * c (i / 2) (decide (i % 2 = 1))

theorem paired_bit (g : ℕ → ℂ) (c : ℕ → Bool → ℂ) (j : ℕ) (b : Bool) :
    paired g c (b.toNat + 2 * j) = g j * c j b := by
  have hdiv : (b.toNat + 2 * j) / 2 = j := by
    have hb : b.toNat ≤ 1 := Bool.toNat_le b
    omega
  have hmod : decide ((b.toNat + 2 * j) % 2 = 1) = b := by cases b <;> simp
  rw [paired, hdiv, hmod]

theorem norm₂_paired (N : ℕ) (g : ℕ → ℂ) (c : ℕ → Bool → ℂ) :
    norm₂ (2 * N) (paired g c) = √(∑ j ∈ Finset.range N,
      ‖g j‖ ^ 2 * (‖c j false‖ ^ 2 + ‖c j true‖ ^ 2)) := by
  have hpair (j : ℕ) : ‖paired g c (2 * j)‖ ^ 2 + ‖paired g c (2 * j + 1)‖ ^ 2 =
      ‖g j‖ ^ 2 * (‖c j false‖ ^ 2 + ‖c j true‖ ^ 2) := by
    have hfalse := paired_bit g c j false
    have htrue := paired_bit g c j true
    rw [Bool.toNat_false, Nat.zero_add] at hfalse
    rw [Bool.toNat_true, Nat.add_comm] at htrue
    rw [hfalse, htrue, norm_mul, norm_mul, mul_pow, mul_pow, mul_add]
  simp only [norm₂, sum_range_pairs, hpair]

theorem norm₂_paired_eq {N : ℕ} (g : ℕ → ℂ) {c : ℕ → Bool → ℂ}
    (h : ∀ j < N, ‖c j false‖ ^ 2 + ‖c j true‖ ^ 2 = 1) :
    norm₂ (2 * N) (paired g c) = norm₂ N g := by
  rw [norm₂_paired, norm₂]
  congr 1
  refine Finset.sum_congr rfl fun j hj => ?_
  rw [h j (Finset.mem_range.mp hj), mul_one]

theorem norm₂_paired_le {N : ℕ} (g : ℕ → ℂ) {c : ℕ → Bool → ℂ} {C : ℝ} (hC : 0 ≤ C)
    (h : ∀ j < N, ‖c j false‖ ^ 2 + ‖c j true‖ ^ 2 ≤ C ^ 2) :
    norm₂ (2 * N) (paired g c) ≤ C * norm₂ N g := by
  rw [norm₂_paired]
  refine Real.sqrt_le_iff.mpr ⟨mul_nonneg hC (norm₂_nonneg N g), ?_⟩
  rw [mul_pow, sq_norm₂, mul_comm, Finset.sum_mul]
  refine Finset.sum_le_sum fun j hj => ?_
  exact mul_le_mul_of_nonneg_left (h j (Finset.mem_range.mp hj)) (sq_nonneg _)

/-- The errors of the factors add up. -/
theorem norm₂_paired_sub_le {N : ℕ} (z : ℂ) (w m : ℕ → ℂ) {c d : ℕ → Bool → ℂ} {C : ℝ}
    (hC : 0 ≤ C) (hc : ∀ j < N, ‖c j false‖ ^ 2 + ‖c j true‖ ^ 2 = 1)
    (hd : ∀ j < N, ‖c j false - d j false‖ ^ 2 + ‖c j true - d j true‖ ^ 2 ≤ C ^ 2) :
    norm₂ (2 * N) (fun i => z * paired w c i - paired m d i) ≤
      norm₂ N (fun j => z * w j - m j) + C * norm₂ N m := by
  have hsplit (i : ℕ) : z * paired w c i - paired m d i =
      paired (fun j => z * w j - m j) c i + paired m (fun j b => c j b - d j b) i := by
    simp only [paired]
    ring
  simp only [hsplit]
  refine (norm₂_add_le _ _ _).trans (add_le_add ?_ ?_)
  · exact (norm₂_paired_eq _ hc).le
  · exact norm₂_paired_le m hC hd

end StateSynthesis
