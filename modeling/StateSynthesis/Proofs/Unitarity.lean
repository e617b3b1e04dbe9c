import StateSynthesis.Proofs.Entries

/-!
Simulation is unitary. The states of `n` qubits are the vectors with `2 ^ n` complex entries, and
their inner product can be summed over basis states or over numbers (`inner_vector`). Main
statement: a sequence is taken back by its inverse, from either side, and keeps norms and inner
products (`simulation_unitary`).
-/
namespace StateSynthesis

open Matrix

/-- Unitary matrices keep the products of vectors. -/
theorem star_mulVec_dotProduct_mulVec {ι : Type*} [Fintype ι] [DecidableEq ι] {u : Matrix ι ι ℂ}
    (hu : u ∈ Matrix.unitaryGroup ι ℂ) (v w : ι → ℂ) :
    star (u *ᵥ v) ⬝ᵥ (u *ᵥ w) = star v ⬝ᵥ w := by
  have hone : uᴴ * u = 1 := Matrix.mem_unitaryGroup_iff'.mp hu
  rw [star_mulVec, ← dotProduct_mulVec, mulVec_mulVec, hone, one_mulVec]

namespace State

variable {qubits : List Qubit}

/-- The entries of a state as a vector of the Hilbert space. -/
noncomputable def vector (s : State ℝ (axes qubits)) : EuclideanSpace ℂ (Fin (2 ^ qubits.length)) :=
  WithLp.toLp _ (entries s)

theorem inner_vector (hn : qubits.Nodup) (s t : State ℝ (axes qubits)) :
    inner ℂ (vector s) (vector t) = star (amplitudes s) ⬝ᵥ amplitudes t := by
  calc inner ℂ (vector s) (vector t)
      = ∑ j, star (entries s j) * entries t j := by
        rw [EuclideanSpace.inner_eq_star_dotProduct, dotProduct_comm]
        rfl
    _ = ∑ x, star (amplitudes s x) * amplitudes t x := by
        simp only [← entries_number hn]
        exact ((Bits.number hn).sum_comp fun j => star (entries s j) * entries t j).symm

end State

namespace Sequence

variable {qubits : List Qubit} {gs : List (Gate ℝ)}

theorem inner_applyTo (hn : qubits.Nodup) (h : On qubits gs) {s r t u : State ℝ (State.axes qubits)}
    (hs : applyTo gs s = .ok t) (hr : applyTo gs r = .ok u) :
    inner ℂ (State.vector t) (State.vector u) = inner ℂ (State.vector s) (State.vector r) := by
  have hvec {s t : State ℝ (State.axes qubits)} (hs : applyTo gs s = .ok t) :
      State.amplitudes t = matrix qubits gs *ᵥ State.amplitudes s := by
    obtain ⟨t', ht', hv⟩ := applyTo_amplitudes hn h s
    obtain rfl := Except.ok.inj (hs.symm.trans ht')
    exact hv
  rw [State.inner_vector hn, State.inner_vector hn, hvec hs, hvec hr,
    star_mulVec_dotProduct_mulVec (matrix_mem_unitaryGroup h)]

theorem norm_applyTo (hn : qubits.Nodup) (h : On qubits gs) {s t : State ℝ (State.axes qubits)}
    (hs : applyTo gs s = .ok t) : ‖State.vector t‖ = ‖State.vector s‖ := by
  have hnorm (v : EuclideanSpace ℂ (Fin (2 ^ qubits.length))) : ‖v‖ = √(RCLike.re (inner ℂ v v)) :=
    norm_eq_sqrt_re_inner v
  rw [hnorm, hnorm, inner_applyTo hn h hs hs]

end Sequence

open Sequence

/-- **Unitarity.** On the qubits of a circuit, the inverse of a sequence takes back what the
sequence does, and the sequence what its inverse does, exactly; the sequence keeps the norm of every
state and the inner product of any two. -/
theorem simulation_unitary {qubits : List Qubit} (hn : qubits.Nodup) {gs : List (Gate ℝ)}
    (h : On qubits gs) (s : State ℝ (State.axes qubits)) :
    (∃ t, applyTo gs s = .ok t ∧ applyTo (inverse gs) t = .ok s ∧
      ‖State.vector t‖ = ‖State.vector s‖ ∧
      ∀ r, ∃ u, applyTo gs r = .ok u ∧
        inner ℂ (State.vector t) (State.vector u) = inner ℂ (State.vector s) (State.vector r)) ∧
    ∃ t, applyTo (inverse gs) s = .ok t ∧ applyTo gs t = .ok s := by
  obtain ⟨t, ht, hback⟩ := inverse_undoes h qubits hn (fun _ hq => hq) s
  refine ⟨⟨t, ht, hback, norm_applyTo hn h ht, fun r => ?_⟩,
    undoes_inverse h qubits hn (fun _ hq => hq) s⟩
  obtain ⟨u, hu, -⟩ := realises_act h qubits hn (fun _ hq => hq) r
  exact ⟨u, hu, inner_applyTo hn h ht hu⟩

/-- A phase gate, a controlled rotation and a conditional phase. -/
theorem simulation_unitary_triple :
    ∃ t, applyTo [Gate.basis .s ⟨0, "a"⟩, (Gate.rz (1 / 2) ⟨1, "b"⟩).withControls [⟨0, "a"⟩],
          Gate.gphase (1 / 3) [⟨1, "b"⟩, ⟨0, "a"⟩]]
        (State.basis (α := ℝ) [⟨0, "a"⟩, ⟨1, "b"⟩] 3) = .ok t ∧
      applyTo (inverse [Gate.basis .s ⟨0, "a"⟩,
          (Gate.rz (1 / 2) ⟨1, "b"⟩).withControls [⟨0, "a"⟩],
          Gate.gphase (1 / 3) [⟨1, "b"⟩, ⟨0, "a"⟩]]) t =
        .ok (State.basis [⟨0, "a"⟩, ⟨1, "b"⟩] 3) ∧
      ‖State.vector t‖ = ‖State.vector (State.basis (α := ℝ) [⟨0, "a"⟩, ⟨1, "b"⟩] 3)‖ := by
  have hrz : ((Gate.rz (1 / 2 : ℝ) ⟨1, "b"⟩).withControls [⟨0, "a"⟩]).On
      ([⟨0, "a"⟩] ++ [⟨1, "b"⟩]) :=
    (Gate.rz_on _ (List.mem_singleton_self _)).withControls (by decide)
  have hon : On [⟨0, "a"⟩, ⟨1, "b"⟩] [Gate.basis .s ⟨0, "a"⟩,
      (Gate.rz (1 / 2 : ℝ) ⟨1, "b"⟩).withControls [⟨0, "a"⟩],
      Gate.gphase (1 / 3) [⟨1, "b"⟩, ⟨0, "a"⟩]] :=
    on_cons.mpr ⟨Gate.basis_on (by decide) (by simp), on_cons.mpr ⟨hrz,
      on_cons.mpr ⟨Gate.gphase_on _ (by decide) (by simp), on_nil _⟩⟩⟩
  obtain ⟨⟨t, ht, hback, hnorm, -⟩, -⟩ := simulation_unitary (by decide) hon
    (State.basis [⟨0, "a"⟩, ⟨1, "b"⟩] 3)
  exact ⟨t, ht, hback, hnorm⟩

end StateSynthesis
