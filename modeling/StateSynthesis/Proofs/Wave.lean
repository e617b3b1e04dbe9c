import StateSynthesis.Proofs.Assignment
import StateSynthesis.Proofs.Rotation
import StateSynthesis.Proofs.Support

/-!
States as waves, with one amplitude for each assignment of bits, and what gates do to them
(`Gate.act`): where all controls are one, the matrix of the kind mixes the two amplitudes that
differ in the target. Main statements: the inverse sequence undoes a sequence
(`act_inverse_act`, `act_act_inverse`), a conjugated sequence acts as the product also when it is
empty (`act_conjugated`), and controlling every gate of a sequence controls the whole
(`act_controlled`).
-/
namespace StateSynthesis

open Complex Assignment

abbrev Wave := Assignment → ℂ

/-! ## Steered matrices -/

namespace Wave

/-- Applies to the qubit `q` the matrix that the assignment chooses. -/
noncomputable def steer (q : Qubit) (m : Assignment → QubitMatrix) (ψ : Wave) : Wave :=
  fun bits => ∑ b, m bits (bits q) b * ψ (Function.update bits q b)

/-- The choice of the matrix does not look at the qubit `q`. -/
def Blind (q : Qubit) (m : Assignment → QubitMatrix) : Prop :=
  ∀ bits b, m (Function.update bits q b) = m bits

theorem steer_smul_one {q : Qubit} {m : Assignment → QubitMatrix} {ψ : Wave} {bits : Assignment}
    {z : ℂ} (h : m bits = z • (1 : QubitMatrix)) : steer q m ψ bits = z * ψ bits := by
  have hself : Function.update bits q (bits q) = bits := Function.update_eq_self q bits
  rw [steer, h, Fintype.sum_bool]
  cases hb : bits q <;> rw [hb] at hself <;> simp [hself]

theorem steer_one {q : Qubit} {m : Assignment → QubitMatrix} {ψ : Wave} {bits : Assignment}
    (h : m bits = 1) : steer q m ψ bits = ψ bits := by
  rw [steer_smul_one (z := 1) (by rw [h, one_smul]), one_mul]

/-- A rotation about `z` only changes phases. -/
theorem steer_rotation_z (q : Qubit) (f : Assignment → ℝ) (ψ : Wave) (bits : Assignment) :
    steer q (fun bits => Axis.z.rotation (f bits)) ψ bits =
      exp ((if bits q then f bits / 2 else -(f bits / 2) : ℝ) * I) * ψ bits := by
  have hself : Function.update bits q (bits q) = bits := Function.update_eq_self q bits
  simp only [steer, Fintype.sum_bool, Axis.rotation_z_apply]
  cases hb : bits q <;> rw [hb] at hself <;> simp [hself]

theorem steer_steer {q : Qubit} {m n : Assignment → QubitMatrix} (hn : Blind q n) (ψ : Wave) :
    steer q m (steer q n ψ) = steer q (fun bits => m bits * n bits) ψ := by
  funext bits
  simp only [steer, Matrix.mul_apply, Fintype.sum_bool, Function.update_self,
    Function.update_idem, hn bits true, hn bits false]
  ring

theorem blind_const (q : Qubit) (m : QubitMatrix) : Blind q fun _ => m := fun _ _ => rfl

theorem Blind.mul {q : Qubit} {m n : Assignment → QubitMatrix} (hm : Blind q m)
    (hn : Blind q n) : Blind q fun bits => m bits * n bits := fun bits b =>
  congrArg₂ (· * ·) (hm bits b) (hn bits b)

theorem ones_update {q : Qubit} {cs : List Qubit} (h : q ∉ cs) (bits : Assignment) (b : Bool) :
    (∀ c ∈ cs, Function.update bits q b c = true) ↔ ∀ c ∈ cs, bits c = true := by
  refine forall₂_congr fun c hc => ?_
  have hne : c ≠ q := fun e => h (e ▸ hc)
  rw [Function.update_of_ne hne]

theorem blind_controls {q : Qubit} {cs : List Qubit} (h : q ∉ cs) (m : QubitMatrix) :
    Blind q fun bits => if ∀ c ∈ cs, bits c = true then m else 1 := fun bits b => by
  simp only [ones_update h]

theorem blind_index {q : Qubit} {qs : List Qubit} (h : q ∉ qs) (f : ℕ → QubitMatrix) :
    Blind q fun bits => f (index qs bits) := fun bits b => by
  simp only [index_update h]

end Wave

open Wave

/-! ## Gates -/

namespace Gate

noncomputable def act (g : Gate ℝ) (ψ : Wave) : Wave := fun bits =>
  if ∀ c ∈ g.controls, bits c = true then
    match g.target with
    | none => exp (g.angle * I) * ψ bits
    | some q => ∑ b, g.kind.unitary g.angle (bits q) b * ψ (Function.update bits q b)
  else ψ bits

theorem act_of_target {g : Gate ℝ} {q : Qubit} (h : g.target = some q) (ψ : Wave) :
    g.act ψ = steer q
      (fun bits => if ∀ c ∈ g.controls, bits c = true then g.kind.unitary g.angle else 1) ψ := by
  funext bits
  by_cases hc : ∀ c ∈ g.controls, bits c = true
  · simp only [act, steer, h, if_pos hc]
  · rw [steer_one (if_neg hc), act, if_neg hc]

theorem act_of_phase {g : Gate ℝ} (h : g.target = none) (ψ : Wave) (bits : Assignment) :
    g.act ψ bits =
      (if ∀ c ∈ g.controls, bits c = true then exp (g.angle * I) else 1) * ψ bits := by
  simp only [act, h]
  split <;> simp

theorem act_inverse_act {g : Gate ℝ} (h : g.Runnable) (ψ : Wave) :
    g.inverse.act (g.act ψ) = ψ := by
  cases ht : g.target with
  | none =>
    have hk : g.kind = .gphase := h.target_eq_none_iff.mp ht
    have ha : g.inverse.angle = -g.angle := by
      simp [Gate.inverse, angleFor, hk, Kind.isParametrized]
    funext bits
    rw [act_of_phase (g := g.inverse) ht, act_of_phase ht, ha]
    show (if ∀ c ∈ g.controls, bits c = true then _ else _) * _ = _
    split
    · rw [← mul_assoc, ← exp_add, ofReal_neg, neg_mul, neg_add_cancel, exp_zero, one_mul]
    · rw [one_mul, one_mul]
  | some q =>
    rw [act_of_target ht, act_of_target (g := g.inverse) ht,
      steer_steer (blind_controls (h.target_free q ht) _)]
    funext bits
    apply steer_one
    show (if ∀ c ∈ g.controls, bits c = true then _ else _) * _ = _
    split
    · exact Kind.unitary_inverse_mul g.kind g.angle
    · exact one_mul 1

theorem act_act_inverse {g : Gate ℝ} (h : g.Runnable) (ψ : Wave) :
    g.act (g.inverse.act ψ) = ψ := by
  have hi := act_inverse_act h.inverse ψ
  rwa [h.toWellFormed.inverse_inverse neg_neg] at hi

/-- A gate that is not targeted at a control keeps to the assignments with the control at one, and
to the others. -/
theorem act_withControls {cs : List Qubit} {g : Gate ℝ} (ψ : Wave) (bits : Assignment) :
    (g.withControls cs).act ψ bits =
      if ∀ c ∈ cs, bits c = true then g.act ψ bits else ψ bits := by
  have hiff : (∀ c ∈ (g.withControls cs).controls, bits c = true) ↔
      (∀ c ∈ cs, bits c = true) ∧ ∀ c ∈ g.controls, bits c = true := by
    simp only [withControls, List.mem_append, or_imp, forall_and]
  by_cases hc : ∀ c ∈ cs, bits c = true
  · rw [if_pos hc]
    simp only [act, hiff.trans (and_iff_right hc)]
    rfl
  · rw [if_neg hc]
    exact if_neg fun h => hc (hiff.mp h).1

end Gate

/-! ## Sequences -/

namespace Sequence

noncomputable def act (gs : List (Gate ℝ)) (ψ : Wave) : Wave := gs.foldl (fun φ g => g.act φ) ψ

@[simp] theorem act_nil (ψ : Wave) : act [] ψ = ψ := rfl

@[simp] theorem act_cons (g : Gate ℝ) (gs : List (Gate ℝ)) (ψ : Wave) :
    act (g :: gs) ψ = act gs (g.act ψ) := rfl

theorem act_append (gs hs : List (Gate ℝ)) (ψ : Wave) : act (gs ++ hs) ψ = act hs (act gs ψ) :=
  List.foldl_append

theorem act_inverse_act {qs : List Qubit} {gs : List (Gate ℝ)} (h : On qs gs) (ψ : Wave) :
    act (inverse gs) (act gs ψ) = ψ := by
  induction gs generalizing ψ with
  | nil => rfl
  | cons g gs ih =>
    obtain ⟨hg, hgs⟩ := on_cons.mp h
    have hsplit : inverse (g :: gs) = inverse gs ++ [g.inverse] := by simp [inverse]
    rw [hsplit, act_append, act_cons, act_cons, ih hgs]
    exact Gate.act_inverse_act hg.toRunnable ψ

theorem act_act_inverse {qs : List Qubit} {gs : List (Gate ℝ)} (h : On qs gs) (ψ : Wave) :
    act gs (act (inverse gs) ψ) = ψ := by
  induction gs generalizing ψ with
  | nil => rfl
  | cons g gs ih =>
    obtain ⟨hg, hgs⟩ := on_cons.mp h
    have hsplit : inverse (g :: gs) = inverse gs ++ [g.inverse] := by simp [inverse]
    rw [hsplit, act_append, act_cons]
    show act gs (g.act (g.inverse.act (act (inverse gs) ψ))) = ψ
    rw [Gate.act_act_inverse hg.toRunnable, ih hgs]

/-- What undoes the action of a sequence from the right is the action of its inverse. -/
theorem act_inverse_eq {qs : List Qubit} {gs : List (Gate ℝ)} (h : On qs gs) {ψ φ : Wave}
    (hφ : act gs φ = ψ) : act (inverse gs) ψ = φ := by
  rw [← hφ, act_inverse_act h]

theorem act_conjugated {qs : List Qubit} {vs : List (Gate ℝ)} (h : On qs vs)
    (gs : List (Gate ℝ)) (ψ : Wave) :
    act (conjugated vs gs) ψ = act (inverse vs) (act gs (act vs ψ)) := by
  cases gs with
  | nil => exact (act_inverse_act h ψ).symm
  | cons g gs =>
    show act (vs ++ (g :: gs) ++ inverse vs) ψ = _
    rw [act_append, act_append]

theorem act_zero (gs : List (Gate ℝ)) : act gs (fun _ => 0) = fun _ => 0 := by
  induction gs with
  | nil => rfl
  | cons g gs ih =>
    have hg : g.act (fun _ => 0) = fun _ => 0 := by
      funext bits
      cases ht : g.target with
      | none => rw [Gate.act_of_phase ht, mul_zero]
      | some q => simp [Gate.act_of_target ht, steer]
    rw [act_cons, hg, ih]

/-- The amplitudes on a set of assignments do not depend on the others, if the set is closed under
changes of the qubits that the gates touch. -/
theorem act_congr_of_closed {qs : List Qubit} {gs : List (Gate ℝ)} (h : On qs gs)
    {P : Assignment → Prop} (hP : ∀ q ∈ qs, ∀ bits b, P bits → P (Function.update bits q b))
    {ψ φ : Wave} (he : ∀ bits, P bits → ψ bits = φ bits) :
    ∀ bits, P bits → act gs ψ bits = act gs φ bits := by
  induction gs generalizing ψ φ with
  | nil => exact he
  | cons g gs ih =>
    obtain ⟨hg, hgs⟩ := on_cons.mp h
    refine ih hgs fun bits hb => ?_
    show g.act ψ bits = g.act φ bits
    cases ht : g.target with
    | none => rw [Gate.act_of_phase ht, Gate.act_of_phase ht, he bits hb]
    | some q =>
      have hq : q ∈ qs := hg.qubits_mem q (by simp [Gate.qubits, ht])
      have hu (b : Bool) : ψ (Function.update bits q b) = φ (Function.update bits q b) :=
        he _ (hP q hq bits b hb)
      simp only [Gate.act_of_target ht, steer, hu]

/-- The amplitudes where the controls `cs` are one do not depend on the others, if no gate is
targeted at one of them. -/
theorem act_congr {cs qs : List Qubit} {gs : List (Gate ℝ)} (h : On qs gs)
    (hd : ∀ c ∈ cs, c ∉ qs) {ψ φ : Wave}
    (he : ∀ bits, (∀ c ∈ cs, bits c = true) → ψ bits = φ bits) :
    ∀ bits, (∀ c ∈ cs, bits c = true) → act gs ψ bits = act gs φ bits :=
  act_congr_of_closed h (fun q hq bits b => (ones_update (fun hc => hd q hc hq) bits b).mpr) he

theorem act_controlled {cs qs : List Qubit} {gs : List (Gate ℝ)} (h : On qs gs)
    (hd : ∀ c ∈ cs, c ∉ qs) (ψ : Wave) (bits : Assignment) :
    act (controlled cs gs) ψ bits =
      if ∀ c ∈ cs, bits c = true then act gs ψ bits else ψ bits := by
  induction gs generalizing ψ with
  | nil => simp [controlled]
  | cons g gs ih =>
    obtain ⟨_, hgs⟩ := on_cons.mp h
    show act (controlled cs gs) ((g.withControls cs).act ψ) bits = _
    rw [ih hgs, Gate.act_withControls]
    by_cases hb : ∀ c ∈ cs, bits c = true
    · rw [if_pos hb, if_pos hb]
      refine act_congr hgs hd (fun bits' hb' => ?_) bits hb
      rw [Gate.act_withControls, if_pos hb']
    · rw [if_neg hb, if_neg hb, if_neg hb]

end Sequence

end StateSynthesis
