import StateSynthesis.Proofs.Merging
import StateSynthesis.Proofs.Multiplexing

/-!
Disentangling backwards. The inverse gates turn the zero state of a register into a vector of their
own (`prepared`), whatever the other qubits hold (`act_inverse_disentangle`). This vector has norm
one (`norm₂_prepared`), and scaled by the norm `ρ` of the given one it is within
`2 ^ k · max 1 ρ` tolerances of it (`prepared_error`).
-/
namespace StateSynthesis

open Assignment Wave Sequence Amplitude

namespace Preparation

/-! ## Levels -/

/-- The angle by which a level of gates is turned back under `k` controls that hold `j`. -/
noncomputable def turned (τ : ℝ) (k : ℕ) (angles : List ℝ) (j : ℕ) : ℝ :=
  if Tolerance.anyReaches τ angles then -Multiplexer.realised τ k (angles.map (- ·)) j else 0

theorem abs_turned_sub_le {τ : ℝ} (hτ : 0 ≤ τ) {k : ℕ} {angles : List ℝ}
    (h : angles.length = 2 ^ k) {j : ℕ} (hj : j < 2 ^ k) :
    |turned τ k angles j - angles.getD j 0| ≤ 2 ^ k * τ := by
  unfold turned
  split
  · have hneg : (angles.map (- ·)).getD j 0 = -angles.getD j 0 := by
      have hmap := List.getD_map (l := angles) (n := j) (d := 0) (f := fun x : ℝ => -x)
      rwa [neg_zero] at hmap
    have hle := Multiplexer.abs_realised_sub_le hτ k ((List.length_map (- ·)).trans h) hj
    have hback (x y : ℝ) : -x - y = -(x - -y) := by ring
    rw [hback, abs_neg, ← hneg]
    exact hle
  · exact Tolerance.abs_skipped_sub_le hτ ‹_› k j

theorem act_inverse_level (τ : ℝ) {axis : Axis} (ha : axis ≠ .identity) {q : Qubit}
    {qs : List Qubit} (hq : q ∉ qs) (hn : qs.Nodup) (angles : List ℝ) (ψ : Wave) :
    act (inverse (if Tolerance.anyReaches τ angles then
        Multiplexer.gates τ axis qs q [] (angles.map (- ·)) else [])) ψ =
      steer q (fun bits => axis.rotation (turned τ qs.length angles (index qs bits))) ψ := by
  unfold turned
  split
  · exact Multiplexer.act_inverse_gates τ hq hn (fun hi => absurd hi ha) _ ψ
  · funext bits
    exact (steer_one (Axis.rotation_zero axis)).symm

/-! ## The prepared vector -/

/-- The vector that is left to the other `k` qubits; the zero state if it is worth no attempt. -/
noncomputable def continued (τ : ℝ) (k : ℕ) (merged : List (Amplitude ℝ)) (w : ℕ → ℂ) : ℕ → ℂ :=
  if k == 0 || merged.any (fun a => Tolerance.exceeds τ a.magnitude) then w
  else fun j => if j = 0 then 1 else 0

/-- The vector that the inverse gates write into a register of `k` qubits. -/
noncomputable def prepared (τ : ℝ) : ℕ → List (Amplitude ℝ) → ℕ → ℂ
  | 0, as, _ => Complex.exp (Multiplexer.kept τ ((as.map Amplitude.phase).headD 0) * Complex.I)
  | k + 1, as, i =>
    let level := Bloch.ofVector as
    let merged := level.map Bloch.merged
    paired (continued τ k merged (prepared τ k merged)) (fun j =>
      Bloch.column (turned τ k (level.map Bloch.phi) j) (turned τ k (level.map Bloch.theta) j)) i

/-- What the rotations of a level make of a wave without a one on the target. -/
theorem steer_column {q : Qubit} {m n : Assignment → QubitMatrix} (hn : Blind q n) {ψ : Wave}
    {bits : Assignment} (hψ : ψ (Function.update bits q true) = 0) :
    steer q m (steer q n ψ) bits =
      (m bits * n bits) (bits q) false * ψ (Function.update bits q false) := by
  rw [steer_steer hn, steer, Fintype.sum_bool, hψ, mul_zero, zero_add]

/-- Of an empty register only a phase is left. -/
theorem act_inverse_phase (τ : ℝ) (as : List (Amplitude ℝ)) (ψ : Wave) :
    act (inverse (disentangle τ [] as)) ψ = fun bits => prepared τ 0 as 0 * ψ bits := by
  have hphase (t : ℝ) (φ : Wave) (bits : Assignment) :
      (Gate.gphase (-t) []).act φ bits = Complex.exp ((-t : ℝ) * Complex.I) * φ bits := by
    rw [Gate.act_gphase, if_pos (by simp)]
  have hzero (φ : Wave) : (Gate.gphase (-0 : ℝ) []).act φ = φ := by
    funext bits
    rw [hphase]
    simp
  refine act_inverse_eq (disentangle_on τ List.nodup_nil as) ?_
  refine (Multiplexer.act_leaf τ (fun t => Gate.gphase (-t) [])
    (as.map Amplitude.phase) _ (hzero _)).trans ?_
  funext bits
  rw [hphase, prepared, ← mul_assoc, ← exp_add_mul_I, neg_add_cancel, Complex.ofReal_zero,
    zero_mul, Complex.exp_zero, one_mul]

/-- Where the recursion ends early, the other qubits stay at zero. -/
theorem act_inverse_continued {τ : ℝ} {qs : List Qubit} {as : List (Amplitude ℝ)} {w : ℕ → ℂ}
    {ψ : Wave} (hψ : ∀ bits, index qs bits ≠ 0 → ψ bits = 0)
    (h : ∀ bits, act (inverse (disentangle τ qs as)) ψ bits =
      w (index qs bits) * ψ (cleared qs bits)) :
    act (inverse (if qs.isEmpty || as.any (fun a => Tolerance.exceeds τ a.magnitude) then
        disentangle τ qs as else [])) ψ =
      fun bits => continued τ qs.length as w (index qs bits) * ψ (cleared qs bits) := by
  have hlen : (qs.length == 0) = qs.isEmpty := by cases qs <;> rfl
  funext bits
  unfold continued
  rw [hlen]
  split
  · exact h bits
  · show ψ bits = (if index qs bits = 0 then 1 else 0) * ψ (cleared qs bits)
    by_cases hb : index qs bits = 0
    · rw [if_pos hb, one_mul, cleared_eq_self ((index_eq_zero_iff qs bits).mp hb)]
    · rw [if_neg hb, zero_mul, hψ bits hb]

theorem act_inverse_disentangle (τ : ℝ) {qs : List Qubit} (h : qs.Nodup)
    (as : List (Amplitude ℝ)) {ψ : Wave} (hψ : ∀ bits, index qs bits ≠ 0 → ψ bits = 0)
    (bits : Assignment) : act (inverse (disentangle τ qs as)) ψ bits =
      prepared τ qs.length as (index qs bits) * ψ (cleared qs bits) := by
  induction qs generalizing as ψ bits with
  | nil =>
    rw [act_inverse_phase, cleared_nil]
    rfl
  | cons q qs ih =>
    obtain ⟨hq, hn⟩ := List.nodup_cons.mp h
    have htail (bits : Assignment) (hb : index qs bits ≠ 0) : ψ bits = 0 := by
      apply hψ
      simp only [index]
      omega
    have hone : ψ (cleared qs (Function.update bits q true)) = 0 := by
      apply hψ
      rw [Ne, index_eq_zero_iff]
      intro hall
      have hat := hall q (List.mem_cons_self ..)
      rw [cleared_of_not_mem hq, Function.update_self] at hat
      exact Bool.noConfusion hat
    have hblind := blind_index hq fun j =>
      Axis.y.rotation (turned τ qs.length ((Bloch.ofVector as).map Bloch.theta) j)
    rw [disentangle, inverse_append, inverse_append, act_append, act_append,
      act_inverse_continued htail (ih hn _ htail), act_inverse_level τ (by decide) hq hn,
      act_inverse_level τ (by decide) hq hn, steer_column hblind (by rw [hone, mul_zero]),
      index_update hq, cleared_cons, index, List.length_cons, prepared, paired_bit, Bloch.column]
    ring

/-! ## The distance from the given vector -/

theorem norm₂_continued {τ : ℝ} {k : ℕ} {w : ℕ → ℂ} (h : norm₂ (2 ^ k) w = 1)
    (merged : List (Amplitude ℝ)) : norm₂ (2 ^ k) (continued τ k merged w) = 1 := by
  unfold continued
  split
  · exact h
  · exact norm₂_unit (Nat.two_pow_pos k)

theorem norm₂_prepared (τ : ℝ) (k : ℕ) (as : List (Amplitude ℝ)) :
    norm₂ (2 ^ k) (prepared τ k as) = 1 := by
  induction k generalizing as with
  | zero =>
    rw [pow_zero, norm₂_one, prepared, Complex.norm_exp_ofReal_mul_I]
  | succ k ih =>
    rw [pow_succ, mul_comm]
    exact (norm₂_paired_eq _ fun j _ => Bloch.column_norm _ _).trans (norm₂_continued (ih _) _)

/-- The angle left out of a phase. -/
theorem norm_phase_sub_le (s t : ℝ) :
    ‖Complex.exp (s * Complex.I) - Complex.exp (t * Complex.I)‖ ≤ |s - t| := by
  have hsq := Bloch.norm_sub_polar 1 1 s t
  have hcos := Real.one_sub_sq_div_two_le_cos (x := s - t)
  rw [Complex.ofReal_one, one_mul, one_mul] at hsq
  refine abs_le_of_sq_le_sq' ?_ (abs_nonneg _) |>.2
  rw [hsq, sq_abs]
  linarith

theorem column_turned_distance {τ : ℝ} (hτ : 0 ≤ τ) {k : ℕ} {phis thetas : List ℝ}
    (hp : phis.length = 2 ^ k) (ht : thetas.length = 2 ^ k) {j : ℕ} (hj : j < 2 ^ k) :
    ‖Bloch.column (turned τ k phis j) (turned τ k thetas j) false -
        Bloch.column (phis.getD j 0) (thetas.getD j 0) false‖ ^ 2 +
      ‖Bloch.column (turned τ k phis j) (turned τ k thetas j) true -
        Bloch.column (phis.getD j 0) (thetas.getD j 0) true‖ ^ 2 ≤ (2 ^ k * τ) ^ 2 := by
  refine (Bloch.column_distance _ _ _ _).trans ?_
  have hφ := sq_le_sq' (abs_le.mp (abs_turned_sub_le hτ hp hj)).1
    (abs_le.mp (abs_turned_sub_le hτ hp hj)).2
  have hθ := sq_le_sq' (abs_le.mp (abs_turned_sub_le hτ ht hj)).1
    (abs_le.mp (abs_turned_sub_le hτ ht hj)).2
  rw [div_pow, div_pow]
  linarith [sq_nonneg (2 ^ k * τ)]

/-- A magnitude that is not negative, times the phase that is left of its own. -/
theorem prepared_error_phase {τ : ℝ} (hτ : 0 ≤ τ) {a : Amplitude ℝ} (ha : 0 ≤ a.magnitude) :
    ‖‖a.toComplex‖ * prepared τ 0 [a] 0 - a.toComplex‖ ≤ τ * ‖a.toComplex‖ := by
  have hnorm : ‖a.toComplex‖ = a.magnitude := by rw [norm_toComplex, abs_of_nonneg ha]
  rw [hnorm, prepared, toComplex, ← mul_sub, norm_mul, Complex.norm_real, Real.norm_eq_abs,
    abs_of_nonneg ha, mul_comm τ]
  refine mul_le_mul_of_nonneg_left ((norm_phase_sub_le _ _).trans ?_) ha
  exact Multiplexer.abs_kept_sub_le hτ a.phase

/-- A short vector is close to any other one of its length. -/
theorem prepared_error_short {τ ε : ℝ} {k : ℕ} {as : List (Amplitude ℝ)}
    (h : norm₂ (2 ^ k) (entry as) ≤ ε) :
    norm₂ (2 ^ k) (fun j => norm₂ (2 ^ k) (entry as) * prepared τ k as j - entry as j) ≤
      ε + ε := by
  have hscaled : norm₂ (2 ^ k) (fun j => norm₂ (2 ^ k) (entry as) * prepared τ k as j) =
      norm₂ (2 ^ k) (entry as) := by
    rw [norm₂_mul_left, norm₂_prepared, Complex.norm_real,
      Real.norm_of_nonneg (norm₂_nonneg _ _), mul_one]
  refine (norm₂_sub_le _ _ _).trans (add_le_add ?_ h)
  rw [hscaled]
  exact h

/-- The error of the merged vector, and that of the columns. -/
theorem prepared_error_level {τ : ℝ} (hτ : 0 ≤ τ) {k : ℕ} {as : List (Amplitude ℝ)}
    (h : as.length = 2 * 2 ^ k)
    (hgo : (k == 0 || ((Bloch.ofVector as).map Bloch.merged).any fun a =>
      Tolerance.exceeds τ a.magnitude) = true) (z : ℂ) :
    norm₂ (2 * 2 ^ k) (fun j => z * prepared τ (k + 1) as j - entry as j) ≤
      norm₂ (2 ^ k) (fun j => z * prepared τ k ((Bloch.ofVector as).map Bloch.merged) j -
        entry ((Bloch.ofVector as).map Bloch.merged) j) +
        2 ^ k * τ * norm₂ (2 * 2 ^ k) (entry as) := by
  have hhalf : (Bloch.ofVector as).length = 2 ^ k := by
    rw [Bloch.length_ofVector]
    omega
  set merged := (Bloch.ofVector as).map Bloch.merged with hm
  have hcont : continued τ k merged (prepared τ k merged) = prepared τ k merged := if_pos hgo
  have hlevel := norm₂_paired_sub_le z (prepared τ k merged) (entry merged)
    (show (0 : ℝ) ≤ 2 ^ k * τ by positivity) (fun j _ => Bloch.column_norm _ _)
    (fun j hj => column_turned_distance hτ ((List.length_map Bloch.phi).trans hhalf)
      ((List.length_map Bloch.theta).trans hhalf) hj)
  rw [Bloch.norm₂_entry_ofVector h]
  refine (le_of_eq (norm₂_congr fun i hi => ?_)).trans hlevel
  rw [prepared, ← hm, hcont, Bloch.entry_eq_paired h hi]

theorem prepared_error {τ : ℝ} (hτ : 0 ≤ τ) (k : ℕ) {as : List (Amplitude ℝ)}
    (h : as.length = 2 ^ k) (h₀ : k = 0 → ∀ a ∈ as, 0 ≤ a.magnitude) :
    norm₂ (2 ^ k) (fun j => norm₂ (2 ^ k) (entry as) * prepared τ k as j - entry as j) ≤
      2 ^ k * τ * max 1 (norm₂ (2 ^ k) (entry as)) := by
  induction k generalizing as with
  | zero =>
    obtain ⟨a, rfl⟩ := List.length_eq_one_iff.mp h
    rw [pow_zero, norm₂_one, norm₂_one, pow_zero, one_mul]
    have hle := prepared_error_phase hτ (h₀ rfl a (List.mem_singleton_self a))
    exact hle.trans (mul_le_mul_of_nonneg_left (le_max_right _ _) hτ)
  | succ k ih =>
    have hsplit : (2 : ℕ) ^ (k + 1) = 2 * 2 ^ k := by rw [pow_succ, mul_comm]
    have hdouble : (2 : ℝ) ^ (k + 1) * τ = 2 ^ k * τ + 2 ^ k * τ := by ring
    have hl : as.length = 2 * 2 ^ k := by rw [h, hsplit]
    have hρ := Bloch.norm₂_entry_ofVector hl
    have hτk : 0 ≤ 2 ^ k * τ := by positivity
    rw [hdouble]
    by_cases hgo : (k == 0 || ((Bloch.ofVector as).map Bloch.merged).any fun a =>
        Tolerance.exceeds τ a.magnitude) = true
    · have hmerged : ((Bloch.ofVector as).map Bloch.merged).length = 2 ^ k := by
        rw [List.length_map, Bloch.length_ofVector]
        omega
      have hih := ih hmerged fun _ => Bloch.merged_nonneg as
      rw [← hρ] at hih
      rw [hsplit, add_mul]
      exact (prepared_error_level hτ hl hgo _).trans
        (add_le_add hih (mul_le_mul_of_nonneg_left (le_max_right _ _) hτk))
    · -- nothing is left that is worth an attempt, so the given vector itself is short
      have hany : ((Bloch.ofVector as).map Bloch.merged).any
          (fun a => Tolerance.exceeds τ a.magnitude) = false :=
        (Bool.or_eq_false_iff.mp (Bool.eq_false_iff.mpr hgo)).2
      have hshort : norm₂ (2 ^ (k + 1)) (entry as) ≤ 2 ^ k * τ := by
        have hle := norm₂_le_of_le (N := 2 ^ k) (fun j _ => norm_entry_le hτ hany j) hτ
        rw [hsplit, hρ]
        exact_mod_cast hle
      exact (prepared_error_short hshort).trans
        (le_mul_of_one_le_right (add_nonneg hτk hτk) (le_max_left _ _))

end Preparation

end StateSynthesis
