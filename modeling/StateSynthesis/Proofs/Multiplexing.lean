import StateSynthesis.Proofs.Acceptance
import StateSynthesis.Proofs.Simulation

/-!
Multiplexed rotations. A multiplexer with a tolerance realises angles of its own (`realised`), each
within `2 ^ k` tolerances of the one asked for (`abs_realised_sub_le`), and acts as the rotation by
the realised angle that its controls choose (`act_gates`). Main statement: on the simulator this
holds of whatever `MultiplexedRotation.gates` returns, and it does return
(`multiplexedRotation_realises`).
-/
namespace StateSynthesis

open Assignment Wave Sequence

/-! ## Halves of vectors -/

namespace Angles

theorem getD_padTo (n : ℕ) (xs : List ℝ) (j : ℕ) : (padTo n xs).getD j 0 = xs.getD j 0 := by
  rw [padTo, zero_real]
  exact getD_append_replicate xs _ j 0

/-- The halves of a vector of length `m + m`, combined by `f`. -/
theorem getD_zipHalves {xs : List ℝ} {m j : ℕ} (h : xs.length = m + m) (hj : j < m)
    (f : ℝ → ℝ → ℝ) :
    (List.zipWith f (xs.take (xs.length / 2)) (xs.drop (xs.length / 2))).getD j 0 =
      f (xs.getD j 0) (xs.getD (m + j) 0) := by
  have hm : xs.length / 2 = m := by omega
  have h₀ : j < xs.length := by omega
  have h₁ : m + j < xs.length := by omega
  rw [hm, List.getD_eq_getElem?_getD, List.getElem?_zipWith, List.getElem?_take_of_lt hj,
    List.getElem?_drop, List.getElem?_eq_getElem h₀, List.getElem?_eq_getElem h₁,
    List.getD_eq_getElem _ _ h₀, List.getD_eq_getElem _ _ h₁]
  rfl

theorem getD_even {xs : List ℝ} {m j : ℕ} (h : xs.length = m + m) (hj : j < m) :
    (even xs).getD j 0 = (xs.getD j 0 + xs.getD (m + j) 0) / 2 := by
  rw [even, getD_zipHalves h hj, half_real]

theorem getD_odd {xs : List ℝ} {m j : ℕ} (h : xs.length = m + m) (hj : j < m) :
    (odd xs).getD j 0 = (xs.getD j 0 - xs.getD (m + j) 0) / 2 := by
  rw [odd, getD_zipHalves h hj, half_real]

/-- An index into the second half is one into the half, shifted. -/
theorem high_half {k j : ℕ} (hj : j < 2 ^ (k + 1)) (h : ¬ j < 2 ^ k) :
    2 ^ k + j % 2 ^ k = j := by
  rw [Nat.pow_succ] at hj
  rw [Nat.mod_eq_sub_mod (by omega), Nat.mod_eq_of_lt (by omega)]
  omega

/-- The errors of the halves add up, in the sum as in the difference. -/
theorem abs_halves_sub_le {xs : List ℝ} {k j : ℕ} (h : xs.length = 2 ^ k + 2 ^ k)
    (hj : j < 2 ^ (k + 1)) {s d A B : ℝ} (hs : |s - (even xs).getD (j % 2 ^ k) 0| ≤ A)
    (hd : |d - (odd xs).getD (j % 2 ^ k) 0| ≤ B) :
    |(if j < 2 ^ k then s + d else s - d) - xs.getD j 0| ≤ A + B := by
  have hv : j % 2 ^ k < 2 ^ k := Nat.mod_lt _ (Nat.two_pow_pos k)
  rw [getD_even h hv, abs_le] at hs
  rw [getD_odd h hv, abs_le] at hd
  rw [abs_le]
  by_cases hlow : j < 2 ^ k
  · rw [Nat.mod_eq_of_lt hlow] at hs hd
    rw [if_pos hlow]
    constructor <;> linarith
  · rw [high_half hj hlow] at hs hd
    rw [if_neg hlow]
    constructor <;> linarith

end Angles

/-- What is not worth an attempt is within the tolerance. -/
theorem Tolerance.abs_getD_le {τ : ℝ} (hτ : 0 ≤ τ) {xs : List ℝ}
    (h : anyReaches τ xs = false) (j : ℕ) : |xs.getD j 0| ≤ τ := by
  rcases Nat.lt_or_ge j xs.length with hj | hj
  · have hx : ¬ ∃ x ∈ xs, τ ≤ |x| := by rw [← anyReaches_real, h]; exact Bool.false_ne_true
    rw [List.getD_eq_getElem _ _ hj]
    exact (not_le.mp fun hle => hx ⟨_, List.getElem_mem hj, hle⟩).le
  · rw [List.getD_eq_default _ _ hj, abs_zero]
    exact hτ

/-- Angles that are skipped as a whole. -/
theorem Tolerance.abs_skipped_sub_le {τ : ℝ} (hτ : 0 ≤ τ) {xs : List ℝ}
    (h : ¬ anyReaches τ xs = true) (k j : ℕ) : |0 - xs.getD j 0| ≤ 2 ^ k * τ := by
  rw [zero_sub, abs_neg]
  calc |xs.getD j 0| ≤ τ := abs_getD_le hτ (Bool.eq_false_iff.mpr h) j
    _ ≤ 2 ^ k * τ := le_mul_of_one_le_left hτ (one_le_pow₀ one_le_two)

namespace Multiplexer

/-! ## Realised angles -/

/-- The angle that is left of `a`. -/
noncomputable def kept (τ a : ℝ) : ℝ := if τ < |a| then a else 0

theorem abs_kept_sub_le {τ : ℝ} (hτ : 0 ≤ τ) (a : ℝ) : |kept τ a - a| ≤ τ := by
  unfold kept
  split
  · rwa [sub_self, abs_zero]
  · rw [zero_sub, abs_neg]
    exact not_lt.mp ‹_›

theorem abs_kept_headD_sub_le {τ : ℝ} (hτ : 0 ≤ τ) (angles : List ℝ) :
    |kept τ (angles.headD 0) - angles.getD 0 0| ≤ τ := by
  have hhead : angles.getD 0 0 = angles.headD 0 := by cases angles <;> rfl
  rw [hhead]
  exact abs_kept_sub_le hτ _

/-- The angle that `k` controls holding `j` turn the target by. -/
noncomputable def realised (τ : ℝ) : ℕ → List ℝ → ℕ → ℝ
  | 0, angles, _ => kept τ (angles.headD 0)
  | k + 1, angles, j =>
    let sum := realised τ k (Angles.even angles) (j % 2 ^ k)
    let difference := if Tolerance.anyReaches τ (Angles.odd angles) then
        realised τ k (Angles.odd angles) (j % 2 ^ k)
      else 0
    if j < 2 ^ k then sum + difference else sum - difference

/-- The error doubles with every control, since sum and difference contribute alike. -/
theorem abs_realised_sub_le {τ : ℝ} (hτ : 0 ≤ τ) (k : ℕ) {angles : List ℝ}
    (h : angles.length = 2 ^ k) {j : ℕ} (hj : j < 2 ^ k) :
    |realised τ k angles j - angles.getD j 0| ≤ 2 ^ k * τ := by
  induction k generalizing angles j with
  | zero =>
    obtain rfl : j = 0 := by simpa using hj
    rw [pow_zero, one_mul]
    exact abs_kept_headD_sub_le hτ angles
  | succ k ih =>
    have hl : angles.length = 2 ^ k + 2 ^ k := by rw [h, Nat.pow_succ, Nat.mul_two]
    have hv : j % 2 ^ k < 2 ^ k := Nat.mod_lt _ (Nat.two_pow_pos k)
    have hsum := ih (Angles.length_even hl) hv
    have hdiff : |(if Tolerance.anyReaches τ (Angles.odd angles) then
        realised τ k (Angles.odd angles) (j % 2 ^ k) else 0) -
          (Angles.odd angles).getD (j % 2 ^ k) 0| ≤ 2 ^ k * τ := by
      split
      · exact ih (Angles.length_odd hl) hv
      · exact Tolerance.abs_skipped_sub_le hτ ‹_› k _
    have htwo : (2 : ℝ) ^ (k + 1) * τ = 2 ^ k * τ + 2 ^ k * τ := by ring
    rw [htwo]
    exact Angles.abs_halves_sub_le hl hj hsum hdiff

/-- Half sums and half differences of angles that are skipped as a whole are skipped as well. -/
theorem not_anyReaches_halves {τ : ℝ} {xs : List ℝ} (h : ¬ Tolerance.anyReaches τ xs = true)
    {f : ℝ → ℝ → ℝ} (hf : ∀ x y, |x| < τ → |y| < τ → |f x y| < τ) (m : ℕ) :
    ¬ Tolerance.anyReaches τ (List.zipWith f (xs.take m) (xs.drop m)) = true := by
  simp only [Tolerance.anyReaches_real, not_exists, not_and, not_le] at h ⊢
  intro z hz
  obtain ⟨i, hi, rfl⟩ := List.getElem_of_mem hz
  rw [List.getElem_zipWith]
  exact hf _ _ (h _ (List.mem_of_mem_take (List.getElem_mem _)))
    (h _ (List.mem_of_mem_drop (List.getElem_mem _)))

/-- Where a whole vector is skipped nothing would have been realised. -/
theorem realised_of_skipped {τ : ℝ} {angles : List ℝ}
    (h : ¬ Tolerance.anyReaches τ angles = true) (k j : ℕ) : realised τ k angles j = 0 := by
  induction k generalizing angles j with
  | zero =>
    rw [realised, kept]
    split
    · rename_i ha
      cases angles with
      | nil => rfl
      | cons a as =>
        rw [Tolerance.anyReaches_real] at h
        exact absurd ⟨a, List.mem_cons_self .., ha.le⟩ h
    · rfl
  | succ k ih =>
    have hhalf (x y : ℝ) (hx : |x| < τ) (hy : |y| < τ) :
        |(x + y) / 2| < τ ∧ |(x - y) / 2| < τ := by
      simp only [abs_lt] at hx hy ⊢
      refine ⟨⟨?_, ?_⟩, ?_, ?_⟩ <;> linarith
    have heven : ¬ Tolerance.anyReaches τ (Angles.even angles) = true :=
      not_anyReaches_halves h (fun x y hx hy => by
        rw [half_real]
        exact (hhalf x y hx hy).1) _
    have hodd : ¬ Tolerance.anyReaches τ (Angles.odd angles) = true :=
      not_anyReaches_halves h (fun x y hx hy => by
        rw [half_real]
        exact (hhalf x y hx hy).2) _
    simp only [realised, ih heven, hodd]
    simp

/-- The most significant control decides between sum and difference. -/
theorem realised_index_cons (τ : ℝ) (c : Qubit) (cs : List Qubit) (angles : List ℝ)
    (bits : Assignment) :
    realised τ (c :: cs).length angles (index (c :: cs).reverse bits) =
      realised τ cs.length (Angles.even angles) (index cs.reverse bits) +
        if bits c then -realised τ cs.length (Angles.odd angles) (index cs.reverse bits)
        else realised τ cs.length (Angles.odd angles) (index cs.reverse bits) := by
  have hi := index_lt cs.reverse bits
  rw [List.length_reverse] at hi
  have hdiff : (if Tolerance.anyReaches τ (Angles.odd angles) = true then
      realised τ cs.length (Angles.odd angles) (index cs.reverse bits) else 0) =
        realised τ cs.length (Angles.odd angles) (index cs.reverse bits) := by
    split
    · rfl
    · exact (realised_of_skipped ‹_› _ _).symm
  simp only [List.length_cons, realised]
  rw [index_reverse_cons, Nat.add_mul_mod_self_left, Nat.mod_eq_of_lt hi, hdiff]
  cases hb : bits c
  · simp [hi]
  · simp [sub_eq_add_neg]

/-! ## The action of the gates -/

end Multiplexer

namespace Gate

theorem act_rz (a : ℝ) (q : Qubit) (ψ : Wave) :
    (rz a q).act ψ = steer q (fun _ => Axis.z.rotation a) ψ := by
  rw [act_of_target (q := q) rfl]
  simp [rz, Kind.unitary_rz]

theorem act_x (q : Qubit) (cs : List Qubit) (ψ : Wave) :
    (x q cs).act ψ =
      steer q (fun bits => if ∀ c ∈ cs, bits c = true then Axis.x.pauli else 1) ψ := by
  rw [act_of_target (q := q) rfl]
  simp [x, Kind.unitary_x]

theorem act_basis (k : Kind) (q : Qubit) (ψ : Wave) :
    (basis k q).act ψ = steer q (fun _ => k.unitary 0) ψ := by
  rw [act_of_target (q := q) rfl]
  simp [basis]

theorem act_inverse_basis (k : Kind) (q : Qubit) (ψ : Wave) :
    (basis k q).inverse.act ψ = steer q (fun _ => k.inverse.unitary (angleFor k (-0))) ψ := by
  rw [act_of_target (q := q) rfl]
  simp [basis, Gate.inverse]

theorem act_gphase (a : ℝ) (cs : List Qubit) (ψ : Wave) (bits : Assignment) :
    (gphase a cs).act ψ bits =
      (if ∀ c ∈ cs, bits c = true then Complex.exp (a * Complex.I) else 1) * ψ bits :=
  act_of_phase rfl ψ bits

end Gate

namespace Multiplexer

theorem act_leaf (τ : ℝ) (gate : ℝ → Gate ℝ) (angles : List ℝ) (ψ : Wave)
    (h : (gate 0).act ψ = ψ) :
    act (leaf τ gate angles) ψ = (gate (kept τ (angles.headD 0))).act ψ := by
  simp only [leaf, kept, zero_real, Tolerance.exceeds_real]
  split
  · rfl
  · exact h.symm

/-- Flips of the target turn a rotation about `z` round where their controls are all one. -/
theorem act_flipped {target : Qubit} {ds : List Qubit} (hd : (target :: ds).Nodup)
    {gs : List (Gate ℝ)} {f : Assignment → ℝ}
    (hf : Blind target fun bits => Axis.z.rotation (f bits))
    (hgs : ∀ ψ, act gs ψ = steer target (fun bits => Axis.z.rotation (f bits)) ψ) (ψ : Wave) :
    act (conjugated [Gate.x target ds] gs) ψ = steer target (fun bits =>
      Axis.z.rotation (if ∀ d ∈ ds, bits d = true then -f bits else f bits)) ψ := by
  have hflip : On (target :: ds) [(Gate.x target ds : Gate ℝ)] :=
    on_cons.mpr ⟨Gate.x_on hd fun _ hq => hq, on_nil _⟩
  have hx := blind_controls (List.nodup_cons.mp hd).1 Axis.x.pauli
  rw [act_conjugated hflip, act_cons, act_nil, hgs, Gate.act_x, steer_steer hx]
  show (Gate.x target ds).act _ = _
  rw [Gate.act_x, steer_steer (hf.mul hx)]
  congr 1
  funext bits
  by_cases hb : ∀ d ∈ ds, bits d = true
  · simp only [if_pos hb, ← mul_assoc, Axis.flip_rotation]
  · simp only [if_neg hb, one_mul, mul_one]

/-- What the difference contributes, whether or not it is worth an attempt. -/
theorem act_difference (τ : ℝ) {target : Qubit} {ds cs : List Qubit} (hd : (target :: ds).Nodup)
    (hc : target ∉ cs) {angles : List ℝ}
    (hz : ∀ ψ, act (aboutZ τ target cs angles) ψ = steer target (fun bits =>
      Axis.z.rotation (realised τ cs.length angles (index cs.reverse bits))) ψ) (ψ : Wave) :
    act (if Tolerance.anyReaches τ angles then
        conjugated [Gate.x target ds] (aboutZ τ target cs angles) else []) ψ =
      steer target (fun bits => Axis.z.rotation (if ∀ d ∈ ds, bits d = true then
        -realised τ cs.length angles (index cs.reverse bits)
        else realised τ cs.length angles (index cs.reverse bits))) ψ := by
  by_cases hr : Tolerance.anyReaches τ angles = true
  · rw [if_pos hr]
    exact act_flipped hd (blind_index (by simpa using hc) fun j =>
      Axis.z.rotation (realised τ cs.length angles j)) hz ψ
  · funext bits
    rw [if_neg hr]
    refine (steer_one ?_).symm
    simp only [realised_of_skipped hr, neg_zero, ite_self, Axis.rotation_zero]

/-- Sum and difference turn the target one after the other. -/
theorem act_aboutZ (τ : ℝ) {target : Qubit} {cs : List Qubit} (h : target ∉ cs)
    (angles : List ℝ) (ψ : Wave) :
    act (aboutZ τ target cs angles) ψ = steer target
      (fun bits => Axis.z.rotation (realised τ cs.length angles (index cs.reverse bits))) ψ := by
  induction cs generalizing angles ψ with
  | nil =>
    have hzero : (Gate.rz (0 : ℝ) target).act ψ = ψ := by
      rw [Gate.act_rz]
      funext bits
      exact steer_one (Axis.rotation_zero _)
    exact (act_leaf τ (Gate.rz · target) angles ψ hzero).trans (Gate.act_rz _ target ψ)
  | cons c cs ih =>
    simp only [List.mem_cons, not_or] at h
    have hblind : Blind target fun bits =>
        Axis.z.rotation (realised τ cs.length (Angles.even angles) (index cs.reverse bits)) :=
      blind_index (by simpa using h.2) fun j =>
        Axis.z.rotation (realised τ cs.length (Angles.even angles) j)
    rw [aboutZ, act_append, ih h.2,
      act_difference τ (by simpa using h.1) h.2 (ih h.2 (Angles.odd angles)), steer_steer hblind]
    congr 1
    funext bits
    rw [Axis.rotation_mul, realised_index_cons, add_comm]
    simp only [List.forall_mem_singleton]

/-- One step of the way from `y` over `x` to `z`. -/
theorem act_basisChange {p p' : Axis} {k : Kind} (h : p.basisChange? = some (k, p'))
    {target : Qubit} {gs : List (Gate ℝ)} {f : Assignment → ℝ}
    (hf : Blind target fun bits => p'.rotation (f bits))
    (hgs : ∀ ψ, act (p'.basisChanges.foldr (fun k body => conjugated [Gate.basis k target] body) gs)
      ψ = steer target (fun bits => p'.rotation (f bits)) ψ) (ψ : Wave) :
    act (p.basisChanges.foldr (fun k body => conjugated [Gate.basis k target] body) gs) ψ =
      steer target (fun bits => p.rotation (f bits)) ψ := by
  have hk : k ≠ .gphase := by
    cases p <;> cases h <;> decide
  have hon : On [target] [(Gate.basis k target : Gate ℝ)] :=
    on_cons.mpr ⟨Gate.basis_on hk (List.mem_cons_self ..), on_nil _⟩
  simp only [Axis.basisChanges_eq p, h, List.foldr_cons]
  rw [act_conjugated hon, act_cons, act_nil, hgs, Gate.act_basis, steer_steer (blind_const _ _)]
  show (Gate.basis k target).inverse.act _ = _
  rw [Gate.act_inverse_basis, steer_steer (hf.mul (blind_const _ _))]
  congr 1
  funext bits
  rw [← mul_assoc]
  exact Kind.basisChange_rotation h 0 (f bits)

/-- All steps of the way to `z`. -/
theorem act_basisChanges {target : Qubit} {gs : List (Gate ℝ)} {f : Assignment → ℝ}
    (hf : ∀ p : Axis, Blind target fun bits => p.rotation (f bits))
    (hgs : ∀ ψ, act gs ψ = steer target (fun bits => Axis.z.rotation (f bits)) ψ)
    {axis : Axis} (hi : axis ≠ .identity) (ψ : Wave) :
    act (axis.basisChanges.foldr (fun k body => conjugated [Gate.basis k target] body) gs) ψ =
      steer target (fun bits => axis.rotation (f bits)) ψ := by
  have hx := act_basisChange (p := .x) rfl (hf .z) hgs
  cases axis with
  | z => exact hgs ψ
  | x => exact hx ψ
  | y => exact act_basisChange (p := .y) rfl (hf .x) hx ψ
  | identity => exact absurd rfl hi

theorem gates_of_ne {axis : Axis} (hi : axis ≠ .identity) (τ : ℝ) (controls : List Qubit)
    (target : Qubit) (outer : List Qubit) (angles : List ℝ) :
    gates τ axis controls target outer angles =
      axis.basisChanges.foldr (fun k body => conjugated [Gate.basis k target] body)
        (underOuter τ target controls.reverse outer angles) := by
  cases axis with
  | identity => exact absurd rfl hi
  | _ => rfl

theorem act_gates (τ : ℝ) {axis : Axis} {controls : List Qubit} {target : Qubit}
    (ht : target ∉ controls) (hi : axis = .identity → controls = []) (angles : List ℝ)
    (ψ : Wave) : act (gates τ axis controls target [] angles) ψ = steer target
      (fun bits => axis.rotation (realised τ controls.length angles (index controls bits))) ψ := by
  by_cases haxis : axis = .identity
  · subst haxis
    obtain rfl := hi rfl
    have hleaf (a : ℝ) (bits : Assignment) : (Gate.gphase (Scalar.half (-a)) []).act ψ bits =
        Complex.exp ((-(a / 2) : ℝ) * Complex.I) * ψ bits := by
      rw [Gate.act_gphase, half_real]
      simp [neg_div]
    have hzero : (Gate.gphase (Scalar.half (-(0 : ℝ))) []).act ψ = ψ := by
      funext bits
      rw [hleaf]
      simp
    have h := act_leaf τ (fun a => Gate.gphase (Scalar.half (-a)) []) angles ψ hzero
    funext bits
    rw [steer_smul_one (Axis.rotation_identity _)]
    exact (congrFun h bits).trans (hleaf _ bits)
  · have hz (φ : Wave) : act (underOuter τ target controls.reverse [] angles) φ =
        steer target (fun bits =>
          Axis.z.rotation (realised τ controls.length angles (index controls bits))) φ := by
      have hr : target ∉ controls.reverse := by simpa using ht
      have h := act_aboutZ τ hr angles φ
      rwa [List.reverse_reverse, List.length_reverse] at h
    rw [gates_of_ne haxis]
    exact act_basisChanges (fun p => blind_index ht fun j =>
      p.rotation (realised τ controls.length angles j)) hz haxis ψ

/-- The inverse gates turn the target back. -/
theorem act_inverse_gates (τ : ℝ) {axis : Axis} {controls : List Qubit} {target : Qubit}
    (ht : target ∉ controls) (hn : controls.Nodup) (hi : axis = .identity → controls = [])
    (angles : List ℝ) (ψ : Wave) :
    act (inverse (gates τ axis controls target [] angles)) ψ = steer target (fun bits =>
      axis.rotation (-realised τ controls.length angles (index controls bits))) ψ := by
  refine act_inverse_eq (gates_on_plain τ axis ht hn angles) ?_
  rw [act_gates τ ht hi, steer_steer (blind_index ht fun j =>
    axis.rotation (-realised τ controls.length angles j))]
  funext bits
  exact steer_one (Axis.rotation_mul_neg _ _)

end Multiplexer

/-- **Multiplexed rotations.** The gates turn the target by an angle that the controls choose, each
angle within `2 ^ k` tolerances of the given one; the gates of the adjoint undo this. -/
theorem multiplexedRotation_realises {r : MultiplexedRotation ℝ} {frame : Option (Circuit ℝ)}
    {axis : Axis} {controls : List Qubit} {target : Qubit}
    (h : r.Admits frame axis controls [] target) :
    ∃ (b : ℕ → ℝ) (gs gs' : List (Gate ℝ)),
      (∀ j < 2 ^ controls.length,
        |b j - r.angles.getD j 0| ≤ 2 ^ controls.length * r.tolerance) ∧
      (r.tolerance = 0 → ∀ j < 2 ^ controls.length, b j = r.angles.getD j 0) ∧
      { r with adjoint := false }.gates frame = .ok gs ∧
      { r with adjoint := true }.gates frame = .ok gs' ∧
      Realises gs (target :: controls)
        (steer target fun bits => axis.rotation (b (index controls bits))) ∧
      Realises gs' (target :: controls)
        (steer target fun bits => axis.rotation (-b (index controls bits))) ∧
      Undoes gs' gs (target :: controls) ∧ Undoes gs gs' (target :: controls) := by
  have hτ : 0 ≤ r.tolerance := Tolerance.check_real.mp h.tolerance_ok
  obtain ⟨hn, _, hd⟩ := List.nodup_append.mp h.distinct
  rw [List.append_nil] at hn hd
  have ht : target ∉ controls := fun hm => hd target hm target (by simp) rfl
  have hon := Multiplexer.gates_on_plain r.tolerance axis ht hn
    (Angles.padTo (dimension controls.length) r.angles)
  have hb : ∀ j < 2 ^ controls.length, |Multiplexer.realised r.tolerance controls.length
      (Angles.padTo (dimension controls.length) r.angles) j - r.angles.getD j 0| ≤
        2 ^ controls.length * r.tolerance := by
    intro j hj
    have hle := Multiplexer.abs_realised_sub_le hτ controls.length
      (Angles.length_padTo h.angles_fit) hj
    rwa [Angles.getD_padTo] at hle
  refine ⟨_, _, _, hb, fun h0 j hj => ?_, (h.withAdjoint false).gates_eq,
    (h.withAdjoint true).gates_eq, ?_, ?_, inverse_undoes hon, undoes_inverse hon⟩
  · exact abs_sub_nonpos.mp ((hb j hj).trans_eq (by rw [h0, mul_zero]))
  · exact (realises_act hon).congr (Multiplexer.act_gates _ ht h.identity_free _)
  · exact (realises_act hon.inverse).congr (Multiplexer.act_inverse_gates _ ht hn h.identity_free _)

theorem multiplexedRotation_realises_pair :
    ∃ (b : ℕ → ℝ) (gs : List (Gate ℝ)),
      (∀ j < 2, |b j - ([1, -2] : List ℝ).getD j 0| ≤ 2 * (1 / 10)) ∧
      (⟨1 / 10, [1, -2], .text "Y", .list [.qubit ⟨0, "a"⟩], .qubit ⟨1, "b"⟩, .list [], false⟩ :
        MultiplexedRotation ℝ).gates none = .ok gs ∧
      Realises gs [⟨1, "b"⟩, ⟨0, "a"⟩]
        (steer ⟨1, "b"⟩ fun bits => Axis.y.rotation (b (index [⟨0, "a"⟩] bits))) := by
  have hadmits : (⟨1 / 10, [1, -2], .text "Y", .list [.qubit ⟨0, "a"⟩], .qubit ⟨1, "b"⟩, .list [],
      false⟩ : MultiplexedRotation ℝ).Admits none .y [⟨0, "a"⟩] [] ⟨1, "b"⟩ :=
    ⟨Tolerance.check_real.mpr (by norm_num), rfl, rfl, rfl, rfl, by decide, by decide, le_rfl⟩
  obtain ⟨b, gs, _, hb, _, hgs, _, hact, _⟩ := multiplexedRotation_realises hadmits
  exact ⟨b, gs, by simpa using hb, hgs, hact⟩

end StateSynthesis
