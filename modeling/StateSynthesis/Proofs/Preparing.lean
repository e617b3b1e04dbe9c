import StateSynthesis.Proofs.Disentangling
import StateSynthesis.Proofs.Simulation

/-!
Preparation into registers. Where all controls are one, an accepted preparation takes the zero state
of the register to the prepared vector, and where some control is zero it does nothing
(`Preparation.Admits.prepares`). Main statement: for a vector of norm one the result is within
`2 ^ n` tolerances of it (`preparation_approximates`).
-/
namespace StateSynthesis

open Assignment Sequence Amplitude

/-! ## What it means to prepare -/

namespace Sequence

/-- On every circuit that has register and controls, amplitudes under a control at zero are kept,
and if the register is zero wherever all controls are one, it then holds the vector `w`. -/
def Prepares (gs : List (Gate ℝ)) (register controls : List Qubit) (w : ℕ → ℂ) : Prop :=
  ∀ qubits : List Qubit, qubits.Nodup → (∀ q ∈ controls ++ register, q ∈ qubits) →
    ∀ s : State ℝ (State.axes qubits), ∃ t, applyTo gs s = .ok t ∧
      (∀ bits, ¬ (∀ c ∈ controls, bits c = true) → State.wave t bits = State.wave s bits) ∧
      ((∀ bits, (∀ c ∈ controls, bits c = true) → index register bits ≠ 0 →
          State.wave s bits = 0) →
        ∀ bits, (∀ c ∈ controls, bits c = true) →
          State.wave t bits = w (index register bits) * State.wave s (cleared register bits))

/-- On every circuit that has register and controls, a state in which some control is zero is not
changed. -/
def Spares (gs : List (Gate ℝ)) (register controls : List Qubit) : Prop :=
  ∀ qubits : List Qubit, qubits.Nodup → (∀ q ∈ controls ++ register, q ∈ qubits) →
    ∀ s : State ℝ (State.axes qubits),
      (∀ bits, (∀ c ∈ controls, bits c = true) → State.wave s bits = 0) → applyTo gs s = .ok s

variable {gs : List (Gate ℝ)} {register controls : List Qubit} {w : ℕ → ℂ}

theorem Prepares.congr (h : Prepares gs register controls w) {v : ℕ → ℂ}
    (hwv : ∀ j < 2 ^ register.length, w j = v j) : Prepares gs register controls v := by
  intro qubits hn hqs s
  obtain ⟨t, ht, hkept, hheld⟩ := h qubits hn hqs s
  refine ⟨t, ht, hkept, fun hs bits hb => ?_⟩
  rw [hheld hs bits hb, hwv _ (index_lt register bits)]

theorem Prepares.spares (h : Prepares gs register controls w)
    (hd : ∀ c ∈ controls, c ∉ register) : Spares gs register controls := by
  intro qubits hn hqs s hs
  obtain ⟨t, ht, hkept, hheld⟩ := h qubits hn hqs s
  rw [ht]
  congr 1
  refine State.wave_injective (State.nodup_axes hn) (funext fun bits => ?_)
  by_cases hb : ∀ c ∈ controls, bits c = true
  · have hc : ∀ c ∈ controls, cleared register bits c = true := fun c hcc => by
      rw [cleared_of_not_mem (hd c hcc), hb c hcc]
    rw [hheld (fun bits hb _ => hs bits hb) bits hb, hs _ hc, hs _ hb, mul_zero]
  · exact hkept bits hb

end Sequence

/-! ## Accepted preparations -/

namespace Preparation

theorem entry_padTo (n : ℕ) (as : List (Amplitude ℝ)) : entry (padTo n as) = entry as := by
  funext j
  rw [entry, padTo, getD_append_replicate, entry]

variable {register controls : List Qubit}

/-- The gates look at the wave only where all controls are one. -/
theorem act_controlled_disentangle (τ : ℝ) (hd : (controls ++ register).Nodup)
    (as : List (Amplitude ℝ)) {ψ : Wave} (hψ : ∀ bits, (∀ c ∈ controls, bits c = true) →
      index register bits ≠ 0 → ψ bits = 0)
    {bits : Assignment} (hb : ∀ c ∈ controls, bits c = true) :
    act (controlled controls (inverse (disentangle τ register as))) ψ bits =
      prepared τ register.length as (index register bits) * ψ (cleared register bits) := by
  obtain ⟨_, hr, hdis⟩ := List.nodup_append.mp hd
  have hfree : ∀ c ∈ controls, c ∉ register := fun c hc hm => hdis c hc c hm rfl
  have hon := (disentangle_on τ hr as).inverse
  let φ : Wave := fun bits => if ∀ c ∈ controls, bits c = true then ψ bits else 0
  have hφ : ∀ bits, index register bits ≠ 0 → φ bits = 0 := fun bits hi => by
    by_cases hc : ∀ c ∈ controls, bits c = true
    · exact (if_pos hc).trans (hψ bits hc hi)
    · exact if_neg hc
  have hclear : ∀ c ∈ controls, cleared register bits c = true := fun c hc => by
    rw [cleared_of_not_mem (hfree c hc), hb c hc]
  calc act (controlled controls (inverse (disentangle τ register as))) ψ bits
      = act (inverse (disentangle τ register as)) ψ bits := by
        rw [act_controlled hon hfree, if_pos hb]
    _ = act (inverse (disentangle τ register as)) φ bits :=
        act_congr hon hfree (fun bits hc => (if_pos hc).symm) bits hb
    _ = prepared τ register.length as (index register bits) * φ (cleared register bits) :=
        act_inverse_disentangle τ hr as hφ bits
    _ = _ := by rw [show φ (cleared register bits) = ψ (cleared register bits) from if_pos hclear]

theorem Admits.prepares {p : Preparation ℝ} {frame : Option (Circuit ℝ)}
    {as : List (Amplitude ℝ)} (h : p.Admits frame register controls as)
    (ha : p.adjoint = false) : ∃ gs, p.gates? frame = .ok (some gs) ∧
      On (controls ++ register) gs ∧ Prepares gs register controls
        (prepared p.tolerance register.length (padTo (dimension register.length) as)) := by
  have hcr : (controls ++ register).Nodup := List.nodup_append_comm.mp h.distinct
  obtain ⟨_, hr, hdis⟩ := List.nodup_append.mp hcr
  have hon := (disentangle_on p.tolerance hr
    (padTo (dimension register.length) as)).inverse
  refine ⟨_, h.gates?_eq, ?_⟩
  rw [ha]
  refine ⟨hon.controlled hcr, fun qubits hn hqs s => ?_⟩
  obtain ⟨t, ht, hw⟩ := realises_act (hon.controlled hcr) qubits hn hqs s
  refine ⟨t, ht, fun bits hb => ?_, fun hs bits hb => ?_⟩
  · rw [hw, act_controlled hon fun c hc hm => hdis c hc c hm rfl, if_neg hb]
  · rw [hw]
    exact act_controlled_disentangle p.tolerance hcr _ hs hb

/-- The prepared vector, scaled by the norm of the given one. -/
theorem Admits.error {p : Preparation ℝ} {frame : Option (Circuit ℝ)} {as : List (Amplitude ℝ)}
    (h : p.Admits frame register controls as) (hτ : 0 ≤ p.tolerance) :
    norm₂ (2 ^ register.length) (fun j => norm₂ (2 ^ register.length) (entry as) *
        prepared p.tolerance register.length (padTo (dimension register.length) as) j -
          entry as j) ≤
      2 ^ register.length * p.tolerance * max 1 (norm₂ (2 ^ register.length) (entry as)) := by
  have hl := length_padTo h.amplitudes_fit
  have hne : register.length ≠ 0 := fun e => h.nonempty (List.length_eq_zero_iff.mp e)
  have hle := prepared_error hτ register.length hl fun e => absurd e hne
  rwa [entry_padTo] at hle

end Preparation

/-- **Approximate preparation.** The register is taken from zero to a vector of norm one within
`2 ^ n` tolerances of the given one. -/
theorem preparation_approximates {p : Preparation ℝ} {frame : Option (Circuit ℝ)}
    {register controls : List Qubit} {as : List (Amplitude ℝ)}
    (h : p.Admits frame register controls as) (ha : p.adjoint = false)
    (hτ : Tolerance.check p.tolerance = .ok ())
    (hunit : norm₂ (2 ^ register.length) (entry as) = 1) :
    ∃ (gs : List (Gate ℝ)) (w : ℕ → ℂ), p.gates? frame = .ok (some gs) ∧
      Prepares gs register controls w ∧ norm₂ (2 ^ register.length) w = 1 ∧
      norm₂ (2 ^ register.length) (fun j => w j - entry as j) ≤
        2 ^ register.length * p.tolerance := by
  obtain ⟨gs, hgs, _, hw⟩ := h.prepares ha
  have herror := h.error (Tolerance.check_real.mp hτ)
  rw [hunit, max_self, mul_one] at herror
  simp only [Complex.ofReal_one, one_mul] at herror
  exact ⟨gs, _, hgs, hw, Preparation.norm₂_prepared _ _ _, herror⟩

theorem preparation_approximates_pair : ∃ (gs : List (Gate ℝ)) (w : ℕ → ℂ),
    (⟨1 / 10, [.ok ⟨3 / 5, 1⟩, .ok ⟨-4 / 5, 2⟩], .list [.qubit ⟨0, "a"⟩], .list [], false⟩ :
      Preparation ℝ).gates? none = .ok (some gs) ∧
    Prepares gs [⟨0, "a"⟩] [] w ∧ norm₂ 2 w = 1 ∧
    norm₂ 2 (fun j => w j - entry [⟨3 / 5, 1⟩, ⟨-4 / 5, 2⟩] j) ≤ 2 * (1 / 10) := by
  have hunit : norm₂ 2 (entry [⟨3 / 5, 1⟩, ⟨-4 / 5, 2⟩]) = 1 := by
    have hsum : (3 / 5 : ℝ) ^ 2 + (4 / 5) ^ 2 = 1 := by norm_num
    simp [norm₂, Finset.sum_range_succ, entry, norm_toComplex, neg_div, hsum]
  have hadmits : (⟨1 / 10, [.ok ⟨3 / 5, 1⟩, .ok ⟨-4 / 5, 2⟩], .list [.qubit ⟨0, "a"⟩], .list [],
      false⟩ : Preparation ℝ).Admits none [⟨0, "a"⟩] [] [⟨3 / 5, 1⟩, ⟨-4 / 5, 2⟩] :=
    ⟨⟨rfl, rfl, by decide, by decide⟩, rfl, le_rfl, by simp [Preparation.isZero]⟩
  have h := preparation_approximates hadmits rfl
    (Tolerance.check_real.mpr (by norm_num)) hunit
  simpa using h

end StateSynthesis
