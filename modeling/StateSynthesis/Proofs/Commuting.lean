import StateSynthesis.Proofs.Simulation

/-!
Gates that commute. Two gates are independent if neither is targeted at a qubit of the other; they
may share controls (`Gate.Independent`). Independent gates act on waves in either order alike
(`Gate.act_comm`), since each mixes amplitudes along its own target only and does not look at the
target of the other. A sequence can be reordered by swaps of independent neighbours
(`Sequence.Reorders`), which changes neither what it does to a state nor the state of its circuit.
Main statement: `independent_commute`.
-/
namespace StateSynthesis

open Complex

/-! ## Steered matrices -/

namespace Wave

/-- A factor that does not look at the qubit can be taken out of the sum. -/
theorem steer_mul {q : Qubit} {p : Assignment → ℂ}
    (hp : ∀ bits b, p (Function.update bits q b) = p bits) (m : Assignment → QubitMatrix)
    (ψ : Wave) :
    steer q m (fun bits => p bits * ψ bits) = fun bits => p bits * steer q m ψ bits := by
  funext bits
  simp only [steer, hp, Finset.mul_sum]
  exact Finset.sum_congr rfl fun b _ => mul_left_comm _ _ _

theorem steer_comm {q r : Qubit} {m n : Assignment → QubitMatrix} (hqr : q ≠ r) (hm : Blind r m)
    (hn : Blind q n) (ψ : Wave) : steer q m (steer r n ψ) = steer r n (steer q m ψ) := by
  funext bits
  have hr (b : Bool) : Function.update bits q b r = bits r := Function.update_of_ne hqr.symm _ _
  have hq (c : Bool) : Function.update bits r c q = bits q := Function.update_of_ne hqr _ _
  have hboth (b c : Bool) : Function.update (Function.update bits q b) r c =
      Function.update (Function.update bits r c) q b := Function.update_comm hqr _ _ _
  calc steer q m (steer r n ψ) bits
      = ∑ b, ∑ c, m bits (bits q) b * (n bits (bits r) c *
          ψ (Function.update (Function.update bits r c) q b)) := by
        simp only [steer, hn bits, hr, hboth, Finset.mul_sum]
    _ = ∑ c, ∑ b, n bits (bits r) c * (m bits (bits q) b *
          ψ (Function.update (Function.update bits r c) q b)) := by
        rw [Finset.sum_comm]
        exact Finset.sum_congr rfl fun c _ => Finset.sum_congr rfl fun b _ => mul_left_comm _ _ _
    _ = steer r n (steer q m ψ) bits := by
        simp only [steer, hm bits, hq, Finset.mul_sum]

end Wave

open Wave

/-! ## Independent gates -/

namespace Gate

/-- Neither gate is targeted at a qubit of the other. -/
structure Independent {α : Type} (g h : Gate α) : Prop where
  left_free : ∀ q ∈ g.target, q ∉ h.qubits
  right_free : ∀ q ∈ h.target, q ∉ g.qubits

variable {g h : Gate ℝ}

/-- What a gate without a target multiplies an amplitude by. -/
noncomputable def factor (g : Gate ℝ) (bits : Assignment) : ℂ :=
  if ∀ c ∈ g.controls, bits c = true then exp (g.angle * I) else 1

/-- The matrix that a gate with a target has for an assignment. -/
noncomputable def steering (g : Gate ℝ) (bits : Assignment) : QubitMatrix :=
  if ∀ c ∈ g.controls, bits c = true then g.kind.unitary g.angle else 1

theorem act_eq_factor (ht : g.target = none) (ψ : Wave) :
    g.act ψ = fun bits => g.factor bits * ψ bits := funext fun bits => act_of_phase ht ψ bits

theorem act_eq_steer {q : Qubit} (ht : g.target = some q) (ψ : Wave) :
    g.act ψ = steer q g.steering ψ := act_of_target ht ψ

theorem factor_update {q : Qubit} (hq : q ∉ g.qubits) (bits : Assignment) (b : Bool) :
    g.factor (Function.update bits q b) = g.factor bits := by
  have hc : q ∉ g.controls := fun hc => hq (List.mem_append_left _ hc)
  simp only [factor, ones_update hc]

theorem blind_steering {q : Qubit} (hq : q ∉ g.qubits) : Blind q g.steering :=
  blind_controls (fun hc => hq (List.mem_append_left _ hc)) _

theorem act_comm (hi : g.Independent h) (ψ : Wave) : g.act (h.act ψ) = h.act (g.act ψ) := by
  cases hg : g.target with
  | none =>
    cases hh : h.target with
    | none =>
      simp only [act_eq_factor hg, act_eq_factor hh]
      funext bits
      exact mul_left_comm _ _ _
    | some r =>
      have hr : r ∉ g.qubits := hi.right_free r hh
      rw [act_eq_factor hg, act_eq_factor hg, act_eq_steer hh, act_eq_steer hh,
        steer_mul (factor_update hr)]
  | some q =>
    have hq : q ∉ h.qubits := hi.left_free q hg
    cases hh : h.target with
    | none =>
      rw [act_eq_factor hh, act_eq_factor hh, act_eq_steer hg, act_eq_steer hg,
        steer_mul (factor_update hq)]
    | some r =>
      have hr : r ∉ g.qubits := hi.right_free r hh
      have hqr : q ≠ r := fun e => hq (by simp [qubits, hh, e])
      simp only [act_eq_steer hg, act_eq_steer hh]
      exact steer_comm hqr (blind_steering hr) (blind_steering hq) ψ

end Gate

/-! ## Reordered sequences -/

namespace Sequence

/-- Two neighbours that are independent have changed places. -/
inductive Swaps {α : Type} : List (Gate α) → List (Gate α) → Prop
  | swap (before after : List (Gate α)) {g h : Gate α} (hi : g.Independent h) :
    Swaps (before ++ g :: h :: after) (before ++ h :: g :: after)

/-- The sequence becomes the other one by swaps of independent neighbours. -/
def Reorders {α : Type} : List (Gate α) → List (Gate α) → Prop := Relation.ReflTransGen Swaps

theorem Swaps.perm {α : Type} {gs hs : List (Gate α)} (h : Swaps gs hs) : gs.Perm hs := by
  cases h with
  | swap before after hi => exact (List.Perm.swap _ _ after).append_left before

theorem Reorders.perm {α : Type} {gs hs : List (Gate α)} (h : Reorders gs hs) : gs.Perm hs := by
  induction h with
  | refl => exact List.Perm.refl gs
  | tail _ hswap ih => exact ih.trans hswap.perm

theorem On.perm {α : Type} [Scalar α] {qs : List Qubit} {gs hs : List (Gate α)} (h : On qs gs)
    (hp : gs.Perm hs) : On qs hs := fun g hg => h g (hp.mem_iff.mpr hg)

variable {gs hs : List (Gate ℝ)}

theorem Swaps.act_eq (h : Swaps gs hs) (ψ : Wave) : act gs ψ = act hs ψ := by
  cases h with
  | swap before after hi =>
    rw [act_append, act_append, act_cons, act_cons, act_cons, act_cons, Gate.act_comm hi]

theorem Reorders.act_eq (h : Reorders gs hs) (ψ : Wave) : act gs ψ = act hs ψ := by
  induction h with
  | refl => rfl
  | tail _ hswap ih => exact ih.trans (hswap.act_eq ψ)

/-- Sequences that act alike make the same of a state. -/
theorem applyTo_congr {qubits : List Qubit} (hn : qubits.Nodup) (hg : On qubits gs)
    (hh : On qubits hs) (he : ∀ ψ, act gs ψ = act hs ψ) (s : State ℝ (State.axes qubits)) :
    ∃ t, applyTo gs s = .ok t ∧ applyTo hs s = .ok t := by
  obtain ⟨t, ht, hw⟩ := realises_act hg qubits hn (fun _ hq => hq) s
  obtain ⟨u, hu, hw'⟩ := realises_act hh qubits hn (fun _ hq => hq) s
  have htu : t = u := State.wave_injective (State.nodup_axes hn) (by rw [hw, hw', he])
  exact ⟨t, ht, htu ▸ hu⟩

end Sequence

open Sequence

/-- **Commutation.** On the qubits of a circuit, gates of which neither is targeted at a qubit of
the other make the same of every state in either order, also if they share controls. Sequences that
differ by swaps of such neighbours make the same of every state, and circuits of such sequences have
the same state. -/
theorem independent_commute {qubits : List Qubit} (hn : qubits.Nodup) :
    (∀ g h : Gate ℝ, g.On qubits → h.On qubits → g.Independent h →
      ∀ s : State ℝ (State.axes qubits),
        ∃ t, applyTo [g, h] s = .ok t ∧ applyTo [h, g] s = .ok t) ∧
    ∀ gs hs : List (Gate ℝ), On qubits gs → Reorders gs hs →
      (∀ s : State ℝ (State.axes qubits), ∃ t, applyTo gs s = .ok t ∧ applyTo hs s = .ok t) ∧
      ∀ name, ∃ zs, (Circuit.mk name qubits gs).statevector = .ok zs ∧
        (Circuit.mk name qubits hs).statevector = .ok zs := by
  have hreorder {gs hs : List (Gate ℝ)} (hg : On qubits gs) (hr : Reorders gs hs)
      (s : State ℝ (State.axes qubits)) : ∃ t, applyTo gs s = .ok t ∧ applyTo hs s = .ok t :=
    applyTo_congr hn hg (hg.perm hr.perm) hr.act_eq s
  refine ⟨fun g h hg hh hi s => ?_, fun gs hs hg hr => ⟨hreorder hg hr, fun name => ?_⟩⟩
  · exact hreorder (on_cons.mpr ⟨hg, on_cons.mpr ⟨hh, on_nil _⟩⟩)
      (Relation.ReflTransGen.single (.swap [] [] hi)) s
  · obtain ⟨t, ht, hu⟩ := hreorder hg hr (State.basis qubits 0)
    refine ⟨t.toList, ?_, ?_⟩
    · rw [Circuit.statevector, Circuit.applyTo, ht]
      rfl
    · rw [Circuit.statevector, Circuit.applyTo, hu]
      rfl

/-- A rotation and a flip under a common control, and a conditional phase on that control. -/
theorem independent_commute_shared :
    (∃ t, applyTo [(Gate.rz (1 / 2) ⟨1, "b"⟩).withControls [⟨0, "a"⟩], Gate.x ⟨2, "c"⟩ [⟨0, "a"⟩]]
        (State.basis (α := ℝ) [⟨0, "a"⟩, ⟨1, "b"⟩, ⟨2, "c"⟩] 3) = .ok t ∧
      applyTo [Gate.x ⟨2, "c"⟩ [⟨0, "a"⟩], (Gate.rz (1 / 2) ⟨1, "b"⟩).withControls [⟨0, "a"⟩]]
        (State.basis (α := ℝ) [⟨0, "a"⟩, ⟨1, "b"⟩, ⟨2, "c"⟩] 3) = .ok t) ∧
    ∃ zs, (Circuit.mk "main" [⟨0, "a"⟩, ⟨1, "b"⟩, ⟨2, "c"⟩] [Gate.gphase (1 / 3 : ℝ) [⟨0, "a"⟩],
        (Gate.rz (1 / 2) ⟨1, "b"⟩).withControls [⟨0, "a"⟩],
        Gate.x ⟨2, "c"⟩ [⟨0, "a"⟩]]).statevector = .ok zs ∧
      (Circuit.mk "main" [⟨0, "a"⟩, ⟨1, "b"⟩, ⟨2, "c"⟩] [Gate.gphase (1 / 3 : ℝ) [⟨0, "a"⟩],
        Gate.x ⟨2, "c"⟩ [⟨0, "a"⟩],
        (Gate.rz (1 / 2) ⟨1, "b"⟩).withControls [⟨0, "a"⟩]]).statevector = .ok zs := by
  have hp : (Gate.gphase (1 / 3 : ℝ) [⟨0, "a"⟩]).On [⟨0, "a"⟩, ⟨1, "b"⟩, ⟨2, "c"⟩] :=
    Gate.gphase_on _ (by decide) (by decide)
  have hz : ((Gate.rz (1 / 2 : ℝ) ⟨1, "b"⟩).withControls [⟨0, "a"⟩]).On
      [⟨0, "a"⟩, ⟨1, "b"⟩, ⟨2, "c"⟩] := by
    have hpair : ((Gate.rz (1 / 2 : ℝ) ⟨1, "b"⟩).withControls [⟨0, "a"⟩]).On
        ([⟨0, "a"⟩] ++ [⟨1, "b"⟩]) :=
      (Gate.rz_on _ (List.mem_singleton_self _)).withControls (by decide)
    exact hpair.mono (by decide)
  have hx : (Gate.x (α := ℝ) ⟨2, "c"⟩ [⟨0, "a"⟩]).On [⟨0, "a"⟩, ⟨1, "b"⟩, ⟨2, "c"⟩] :=
    Gate.x_on (by decide) (by decide)
  have hi : ((Gate.rz (1 / 2 : ℝ) ⟨1, "b"⟩).withControls [⟨0, "a"⟩]).Independent
      (Gate.x ⟨2, "c"⟩ [⟨0, "a"⟩]) := by
    constructor <;> simp [Gate.rz, Gate.x, Gate.withControls, Gate.qubits]
  have hn : [(⟨0, "a"⟩ : Qubit), ⟨1, "b"⟩, ⟨2, "c"⟩].Nodup := by decide
  obtain ⟨hpair, hsequence⟩ := independent_commute hn
  refine ⟨hpair _ _ hz hx hi _, ?_⟩
  have hon : On [⟨0, "a"⟩, ⟨1, "b"⟩, ⟨2, "c"⟩] [Gate.gphase (1 / 3 : ℝ) [⟨0, "a"⟩],
      (Gate.rz (1 / 2) ⟨1, "b"⟩).withControls [⟨0, "a"⟩], Gate.x ⟨2, "c"⟩ [⟨0, "a"⟩]] :=
    on_cons.mpr ⟨hp, on_cons.mpr ⟨hz, on_cons.mpr ⟨hx, on_nil _⟩⟩⟩
  exact (hsequence _ _ hon (Relation.ReflTransGen.single (.swap [_] [] hi))).2 "main"

end StateSynthesis
