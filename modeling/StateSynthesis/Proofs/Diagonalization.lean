import StateSynthesis.Proofs.Multiplexing

/-!
Diagonal unitaries. The gates multiply every basis state of the register by a phase of its own
(`act_phases`); the realised phases are within `(2 ^ n + 1) / 2` tolerances of the given ones
(`abs_realised_sub_le`), since the tolerance is compared with rotations, which count by half, on
every level, and with a phase at the end. Main statement: `diagonalUnitary_realises`.
-/
namespace StateSynthesis

open Assignment Wave Sequence

namespace Diagonal

/-- The phase that a register of `k` qubits gets where it holds `j`. -/
noncomputable def realised (τ : ℝ) : ℕ → List ℝ → ℕ → ℝ
  | 0, angles, _ => Multiplexer.kept τ (angles.headD 0)
  | k + 1, angles, j =>
    let turn := Multiplexer.realised τ k ((Angles.odd angles).map (-Scalar.two * ·)) (j % 2 ^ k)
    realised τ k (Angles.even angles) (j % 2 ^ k) +
      if j < 2 ^ k then -Scalar.half turn else Scalar.half turn

theorem getD_map_double (xs : List ℝ) (j : ℕ) :
    (xs.map (-Scalar.two * ·)).getD j 0 = -2 * xs.getD j 0 := by
  have hzero : -(Scalar.two : ℝ) * 0 = 0 := mul_zero _
  rw [← hzero, List.getD_map, hzero, two_real]

theorem abs_realised_sub_le {τ : ℝ} (hτ : 0 ≤ τ) (n : ℕ) {angles : List ℝ}
    (h : angles.length = 2 ^ n) {j : ℕ} (hj : j < 2 ^ n) :
    |realised τ n angles j - angles.getD j 0| ≤ (2 ^ n + 1) * τ / 2 := by
  induction n generalizing angles j with
  | zero =>
    obtain rfl : j = 0 := by simpa using hj
    have hone : ((2 : ℝ) ^ 0 + 1) * τ / 2 = τ := by ring
    rw [hone]
    exact Multiplexer.abs_kept_headD_sub_le hτ angles
  | succ k ih =>
    have hl : angles.length = 2 ^ k + 2 ^ k := by rw [h, Nat.pow_succ, Nat.mul_two]
    have hv : j % 2 ^ k < 2 ^ k := Nat.mod_lt _ (Nat.two_pow_pos k)
    have hsum := ih (Angles.length_even hl) hv
    have hturn := Multiplexer.abs_realised_sub_le hτ k
      ((List.length_map (-Scalar.two * ·)).trans (Angles.length_odd hl)) hv
    simp only [realised, half_real]
    set turn := Multiplexer.realised τ k ((Angles.odd angles).map (-Scalar.two * ·)) (j % 2 ^ k)
    set sum := realised τ k (Angles.even angles) (j % 2 ^ k)
    have hdiff : |-(turn / 2) - (Angles.odd angles).getD (j % 2 ^ k) 0| ≤ 2 ^ k * τ / 2 := by
      rw [getD_map_double, abs_le] at hturn
      rw [abs_le]
      constructor <;> linarith
    have hsplit : sum + (if j < 2 ^ k then -(turn / 2) else turn / 2) =
        if j < 2 ^ k then sum + -(turn / 2) else sum - -(turn / 2) := by
      split
      · rfl
      · rw [sub_neg_eq_add]
    have htwo : ((2 : ℝ) ^ (k + 1) + 1) * τ / 2 = (2 ^ k + 1) * τ / 2 + 2 ^ k * τ / 2 := by ring
    rw [hsplit, htwo]
    exact Angles.abs_halves_sub_le hl hj hsum hdiff

theorem realised_index_cons (τ : ℝ) (q : Qubit) (qs : List Qubit) (angles : List ℝ)
    (bits : Assignment) :
    realised τ (q :: qs).length angles (index (q :: qs).reverse bits) =
      realised τ qs.length (Angles.even angles) (index qs.reverse bits) +
        (if bits q then
          Multiplexer.realised τ qs.length ((Angles.odd angles).map (-Scalar.two * ·))
            (index qs.reverse bits) / 2
        else -(Multiplexer.realised τ qs.length ((Angles.odd angles).map (-Scalar.two * ·))
            (index qs.reverse bits) / 2)) := by
  have hi := index_lt qs.reverse bits
  rw [List.length_reverse] at hi
  simp only [List.length_cons, realised, half_real]
  rw [index_reverse_cons, Nat.add_mul_mod_self_left, Nat.mod_eq_of_lt hi]
  cases hb : bits q <;> simp [hi]

/-- The rotation of the target is diagonal, and what is left to the other qubits is so by
induction. -/
theorem act_phases (τ : ℝ) {qs : List Qubit} (h : qs.Nodup) (angles : List ℝ) (ψ : Wave)
    (bits : Assignment) : act (phases τ qs angles) ψ bits =
      Complex.exp (realised τ qs.length angles (index qs.reverse bits) * Complex.I) * ψ bits := by
  induction qs generalizing angles ψ with
  | nil =>
    have hzero : (Gate.gphase (0 : ℝ) []).act ψ = ψ := by
      funext bits
      rw [Gate.act_gphase]
      simp
    have hleaf := Multiplexer.act_leaf τ (Gate.gphase · []) angles ψ hzero
    refine (congrFun hleaf bits).trans ?_
    rw [Gate.act_gphase, if_pos (by simp)]
    rfl
  | cons q qs ih =>
    obtain ⟨hq, hn⟩ := List.nodup_cons.mp h
    rw [phases, act_append, ih hn, Multiplexer.act_aboutZ τ hq, steer_rotation_z,
      realised_index_cons, exp_add_mul_I, mul_assoc]

theorem act_inverse_phases (τ : ℝ) {qs : List Qubit} (h : qs.Nodup) (angles : List ℝ) (ψ : Wave)
    (bits : Assignment) : act (inverse (phases τ qs angles)) ψ bits =
      Complex.exp ((-realised τ qs.length angles (index qs.reverse bits) : ℝ) * Complex.I) *
        ψ bits := by
  refine congrFun (act_inverse_eq (phases_on τ h angles)
    (φ := fun bits => Complex.exp ((-realised τ qs.length angles (index qs.reverse bits) : ℝ) *
      Complex.I) * ψ bits) ?_) bits
  funext bits
  rw [act_phases τ h, ← mul_assoc, ← exp_add_mul_I, add_neg_cancel, Complex.ofReal_zero,
    zero_mul, Complex.exp_zero, one_mul]

end Diagonal

/-- **Diagonal unitaries.** Where all controls are one, each basis state of the register gets a
phase within `(2 ^ n + 1) / 2` tolerances of the given one, and its negative from the adjoint;
everywhere else nothing happens. -/
theorem diagonalUnitary_realises {d : DiagonalUnitary ℝ} {frame : Option (Circuit ℝ)}
    {register controls : List Qubit} (h : d.Admits frame register controls) :
    ∃ (b : ℕ → ℝ) (gs gs' : List (Gate ℝ)),
      (∀ j < 2 ^ register.length,
        |b j - d.angles.getD j 0| ≤ (2 ^ register.length + 1) * d.tolerance / 2) ∧
      (d.tolerance = 0 → ∀ j < 2 ^ register.length, b j = d.angles.getD j 0) ∧
      { d with adjoint := false }.gates frame = .ok gs ∧
      { d with adjoint := true }.gates frame = .ok gs' ∧
      Realises gs (controls ++ register) (fun ψ bits =>
        if ∀ c ∈ controls, bits c = true then
          Complex.exp (b (index register bits) * Complex.I) * ψ bits
        else ψ bits) ∧
      Realises gs' (controls ++ register) (fun ψ bits =>
        if ∀ c ∈ controls, bits c = true then
          Complex.exp ((-b (index register bits) : ℝ) * Complex.I) * ψ bits
        else ψ bits) := by
  have hτ : 0 ≤ d.tolerance := Tolerance.check_real.mp h.tolerance_ok
  obtain ⟨hr, _, hd⟩ := List.nodup_append.mp h.distinct
  have hrev : register.reverse.Nodup := List.nodup_reverse.mpr hr
  have hon := (Diagonal.phases_on d.tolerance hrev
    (Angles.padTo (dimension register.length) d.angles)).mono fun q => List.mem_reverse.mp
  have hcr : (controls ++ register).Nodup := List.nodup_append_comm.mp h.distinct
  have hdis : ∀ c ∈ controls, c ∉ register := fun c hc hm => hd c hm c hc rfl
  have hb : ∀ j < 2 ^ register.length, |Diagonal.realised d.tolerance register.length
      (Angles.padTo (dimension register.length) d.angles) j - d.angles.getD j 0| ≤
        (2 ^ register.length + 1) * d.tolerance / 2 := by
    intro j hj
    have hle := Diagonal.abs_realised_sub_le hτ register.length
      (Angles.length_padTo h.angles_fit) hj
    rwa [Angles.getD_padTo] at hle
  refine ⟨_, _, _, hb, fun h0 j hj => ?_, (h.withAdjoint false).gates_eq,
    (h.withAdjoint true).gates_eq, ?_, ?_⟩
  · exact abs_sub_nonpos.mp ((hb j hj).trans_eq (by rw [h0, mul_zero, zero_div]))
  · refine (realises_act (hon.controlled hcr)).congr fun ψ => funext fun bits => ?_
    rw [act_controlled hon hdis]
    have ha := Diagonal.act_phases d.tolerance hrev
      (Angles.padTo (dimension register.length) d.angles) ψ bits
    rw [List.reverse_reverse, List.length_reverse] at ha
    rw [ha]
  · refine (realises_act (hon.inverse.controlled hcr)).congr fun ψ => funext fun bits => ?_
    rw [act_controlled hon.inverse hdis]
    have ha := Diagonal.act_inverse_phases d.tolerance hrev
      (Angles.padTo (dimension register.length) d.angles) ψ bits
    rw [List.reverse_reverse, List.length_reverse] at ha
    rw [ha]

theorem diagonalUnitary_realises_triple :
    ∃ (b : ℕ → ℝ) (gs : List (Gate ℝ)),
      (∀ j < 4, |b j - ([1, -2, 3] : List ℝ).getD j 0| ≤ (4 + 1) * (1 / 10) / 2) ∧
      (⟨1 / 10, [1, -2, 3], .list [.qubit ⟨0, "a"⟩, .qubit ⟨1, "b"⟩], .list [.qubit ⟨2, "c"⟩],
        false⟩ : DiagonalUnitary ℝ).gates none = .ok gs ∧
      Realises gs [⟨2, "c"⟩, ⟨0, "a"⟩, ⟨1, "b"⟩] (fun ψ bits =>
        if ∀ c ∈ [(⟨2, "c"⟩ : Qubit)], bits c = true then
          Complex.exp (b (index [⟨0, "a"⟩, ⟨1, "b"⟩] bits) * Complex.I) * ψ bits
        else ψ bits) := by
  have hadmits : (⟨1 / 10, [1, -2, 3], .list [.qubit ⟨0, "a"⟩, .qubit ⟨1, "b"⟩],
      .list [.qubit ⟨2, "c"⟩], false⟩ : DiagonalUnitary ℝ).Admits none
        [⟨0, "a"⟩, ⟨1, "b"⟩] [⟨2, "c"⟩] :=
    ⟨Tolerance.check_real.mpr (by norm_num), rfl, rfl, by decide, by decide, by decide⟩
  obtain ⟨b, gs, _, hb, _, hgs, _, hact, _⟩ := diagonalUnitary_realises hadmits
  refine ⟨b, gs, fun j hj => ?_, hgs, hact⟩
  exact (hb j hj).trans_eq (by norm_num)

end StateSynthesis
