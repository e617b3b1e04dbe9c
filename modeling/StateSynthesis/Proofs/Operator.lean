import StateSynthesis.Proofs.Simulation

/-!
Gates as matrices on the qubits of a circuit. The matrix of a gate is that of its kind, put on the
target and under the controls, and the matrix of a sequence is the product of those of its gates.
The simulator multiplies by it (`applyTo_amplitudes`). The matrix of the inverse sequence is the
conjugate transpose (`matrix_inverse`), so all of them are unitary (`matrix_mem_unitaryGroup`), and
controlling every gate controls the whole matrix (`matrix_controlled`).
-/
namespace StateSynthesis

open Complex Assignment Matrix

/-- The basis states of the qubits of a circuit. -/
abbrev Bits (qs : List Qubit) := {q // q ∈ qs} → Bool

abbrev Operator (qs : List Qubit) := Matrix (Bits qs) (Bits qs) ℂ

namespace Bits

variable {qs : List Qubit}

def extend (x : Bits qs) : Assignment := fun q => if h : q ∈ qs then x ⟨q, h⟩ else false

def restrict (qs : List Qubit) (bits : Assignment) : Bits qs := fun q => bits q.1

/-- The amplitudes of the qubits `qs` as a wave that does not look at other qubits. -/
def lift (v : Bits qs → ℂ) : Wave := fun bits => v (restrict qs bits)

theorem extend_apply (x : Bits qs) (q : {q // q ∈ qs}) : extend x q.1 = x q := dif_pos q.2

theorem restrict_extend (x : Bits qs) : restrict qs (extend x) = x :=
  funext fun q => extend_apply x q

theorem extend_restrict {q : Qubit} (hq : q ∈ qs) (bits : Assignment) :
    extend (restrict qs bits) q = bits q := dif_pos hq

theorem restrict_update {q : Qubit} (hq : q ∈ qs) (bits : Assignment) (b : Bool) :
    restrict qs (Function.update bits q b) = Function.update (restrict qs bits) ⟨q, hq⟩ b := by
  funext p
  by_cases hp : p = ⟨q, hq⟩
  · subst hp
    simp [restrict]
  · have hne : p.1 ≠ q := fun e => hp (Subtype.ext e)
    simp [restrict, hp, hne]

theorem lift_injective : Function.Injective (lift : (Bits qs → ℂ) → Wave) := by
  intro v w h
  funext x
  have hx := congrFun h (extend x)
  rwa [lift, lift, restrict_extend] at hx

/-- The two basis states differ at most in the qubit `q`. -/
def AgreeOff (q : Qubit) (x y : Bits qs) : Prop := ∀ p : {q // q ∈ qs}, p.1 ≠ q → x p = y p

instance (q : Qubit) (x y : Bits qs) : Decidable (AgreeOff q x y) :=
  inferInstanceAs (Decidable (∀ _, _))

theorem AgreeOff.symm {q : Qubit} {x y : Bits qs} (h : AgreeOff q x y) : AgreeOff q y x :=
  fun p hp => (h p hp).symm

theorem agreeOff_comm {q : Qubit} {x y : Bits qs} : AgreeOff q x y ↔ AgreeOff q y x :=
  ⟨AgreeOff.symm, AgreeOff.symm⟩

theorem AgreeOff.extend_eq {q c : Qubit} {x y : Bits qs} (h : AgreeOff q x y) (hc : c ≠ q) :
    extend x c = extend y c := by
  unfold extend
  split
  · exact h ⟨c, _⟩ hc
  · rfl

theorem eq_update_iff {q : Qubit} (hq : q ∈ qs) {x y : Bits qs} {b : Bool} :
    y = Function.update x ⟨q, hq⟩ b ↔ AgreeOff q x y ∧ extend y q = b := by
  have hy : extend y q = y ⟨q, hq⟩ := extend_apply y ⟨q, hq⟩
  rw [hy]
  constructor
  · rintro rfl
    exact ⟨fun p hp => (Function.update_of_ne (fun e => hp (congrArg Subtype.val e)) b x).symm,
      Function.update_self _ _ _⟩
  · rintro ⟨h, rfl⟩
    funext p
    by_cases hp : p = ⟨q, hq⟩
    · subst hp
      simp
    · rw [Function.update_of_ne hp]
      exact (h p fun e => hp (Subtype.ext e)).symm

end Bits

open Bits

/-! ## Controlled matrices -/

namespace Operator

variable {qs : List Qubit}

/-- The matrix `m` where all controls are one, and the identity elsewhere. -/
def controlledBy (cs : List Qubit) (m : Operator qs) : Operator qs :=
  Matrix.of fun x y => if ∀ c ∈ cs, extend x c = true then m x y else (1 : Operator qs) x y

/-- The matrix does not change the qubits `cs` of a basis state. -/
def Keeps (cs : List Qubit) (m : Operator qs) : Prop :=
  ∀ x y, m x y ≠ 0 → ∀ c ∈ cs, extend x c = extend y c

theorem keeps_one (cs : List Qubit) : Keeps cs (1 : Operator qs) := by
  intro x y h c _
  by_cases hxy : x = y
  · rw [hxy]
  · exact absurd (Matrix.one_apply_ne hxy) h

theorem Keeps.mul {cs : List Qubit} {m k : Operator qs} (hm : Keeps cs m) (hk : Keeps cs k) :
    Keeps cs (m * k) := by
  intro x z h c hc
  obtain ⟨y, -, hy⟩ := Finset.exists_ne_zero_of_sum_ne_zero h
  exact (hm x y (left_ne_zero_of_mul hy) c hc).trans (hk y z (right_ne_zero_of_mul hy) c hc)

theorem Keeps.ones_iff {cs : List Qubit} {m : Operator qs} (hm : Keeps cs m) {x y : Bits qs}
    (h : m x y ≠ 0) : (∀ c ∈ cs, extend x c = true) ↔ ∀ c ∈ cs, extend y c = true :=
  forall₂_congr fun c hc => by rw [hm x y h c hc]

theorem controlledBy_append (cs ds : List Qubit) (m : Operator qs) :
    controlledBy (cs ++ ds) m = controlledBy cs (controlledBy ds m) := by
  ext x y
  simp only [controlledBy, Matrix.of_apply, List.mem_append, or_imp, forall_and]
  split_ifs <;> tauto

theorem controlledBy_mul {cs : List Qubit} {m : Operator qs} (hm : Keeps cs m) (k : Operator qs) :
    controlledBy cs (m * k) = controlledBy cs m * controlledBy cs k := by
  ext x z
  simp only [controlledBy, Matrix.mul_apply, Matrix.of_apply]
  by_cases hx : ∀ c ∈ cs, extend x c = true
  · simp only [if_pos hx]
    refine Finset.sum_congr rfl fun y _ => ?_
    by_cases hy : m x y = 0
    · simp [hy]
    · rw [if_pos ((hm.ones_iff hy).mp hx)]
  · simp only [if_neg hx, Matrix.one_apply, ite_mul, one_mul, zero_mul, Finset.sum_ite_eq,
      Finset.mem_univ, ↓reduceIte]

theorem conjTranspose_controlledBy {cs : List Qubit} {m : Operator qs} (hm : Keeps cs m) :
    (controlledBy cs m)ᴴ = controlledBy cs mᴴ := by
  ext x y
  simp only [controlledBy, Matrix.conjTranspose_apply, Matrix.of_apply]
  by_cases hxy : x = y
  · subst hxy
    split <;> simp
  have hyx : y ≠ x := fun e => hxy e.symm
  rw [Matrix.one_apply_ne hxy, Matrix.one_apply_ne hyx]
  by_cases h : m y x = 0
  · simp [h]
  · simp only [hm.ones_iff h]
    split <;> simp

end Operator

/-! ## The matrices of gates -/

namespace Gate

/-- The gate without its controls. -/
noncomputable def core (qs : List Qubit) (g : Gate ℝ) : Operator qs :=
  match g.target with
  | none => exp (g.angle * I) • 1
  | some q => Matrix.of fun x y =>
    if AgreeOff q x y then g.kind.unitary g.angle (extend x q) (extend y q) else 0

noncomputable def matrix (qs : List Qubit) (g : Gate ℝ) : Operator qs :=
  Operator.controlledBy g.controls (g.core qs)

variable {qs : List Qubit} {g : Gate ℝ}

theorem core_of_phase (h : g.target = none) : g.core qs = exp (g.angle * I) • 1 := by
  simp only [core, h]

theorem core_of_target {q : Qubit} (h : g.target = some q) : g.core qs = Matrix.of fun x y =>
    if AgreeOff q x y then g.kind.unitary g.angle (extend x q) (extend y q) else 0 := by
  simp only [core, h]

/-- A row of a matrix on one qubit has two entries that may not be zero. -/
theorem sum_agreeOff {q : Qubit} (hq : q ∈ qs) (x : Bits qs) (f : Bool → ℂ) (v : Bits qs → ℂ) :
    ∑ y, (if AgreeOff q x y then f (extend y q) else 0) * v y =
      ∑ b, f b * v (Function.update x ⟨q, hq⟩ b) := by
  have hterm (y : Bits qs) : (if AgreeOff q x y then f (extend y q) else 0) * v y =
      ∑ b, if y = Function.update x ⟨q, hq⟩ b then f b * v y else 0 := by
    simp only [eq_update_iff hq, ite_and]
    split <;> simp
  simp only [hterm]
  rw [Finset.sum_comm]
  simp

/-- The action on a wave of amplitudes of the qubits is the product with the matrix. -/
theorem act_lift (h : g.On qs) (v : Bits qs → ℂ) :
    g.act (Bits.lift v) = Bits.lift (g.matrix qs *ᵥ v) := by
  funext bits
  have hcontrols : (∀ c ∈ g.controls, extend (restrict qs bits) c = true) ↔
      ∀ c ∈ g.controls, bits c = true := forall₂_congr fun c hc => by
    rw [extend_restrict (h.qubits_mem c (List.mem_append_left _ hc))]
  simp only [act, Bits.lift, matrix, Operator.controlledBy, Matrix.mulVec, dotProduct,
    Matrix.of_apply, hcontrols]
  by_cases hb : ∀ c ∈ g.controls, bits c = true
  · simp only [if_pos hb]
    cases ht : g.target with
    | none => simp [core_of_phase ht, Matrix.one_apply]
    | some q =>
      have hq : q ∈ qs := h.qubits_mem q (by simp [qubits, ht])
      simp only [core_of_target ht, Matrix.of_apply, extend_restrict hq, restrict_update hq]
      exact (sum_agreeOff hq _ _ v).symm
  · simp [if_neg hb, Matrix.one_apply]

theorem matrix_withControls (cs : List Qubit) (g : Gate ℝ) :
    (g.withControls cs).matrix qs = Operator.controlledBy cs (g.matrix qs) :=
  Operator.controlledBy_append cs g.controls (g.core qs)

theorem core_keeps {cs : List Qubit} (h : ∀ q ∈ g.target, q ∉ cs) :
    Operator.Keeps cs (g.core qs) := by
  intro x y hne c hc
  cases ht : g.target with
  | none =>
    rw [core_of_phase ht, Matrix.smul_apply] at hne
    exact Operator.keeps_one cs x y (right_ne_zero_of_smul hne) c hc
  | some q =>
    simp only [core_of_target ht, Matrix.of_apply, ne_eq, ite_eq_right_iff,
      Classical.not_imp] at hne
    exact hne.1.extend_eq fun e => h q ht (e ▸ hc)

theorem matrix_keeps {cs : List Qubit} (h : ∀ q ∈ g.target, q ∉ cs) :
    Operator.Keeps cs (g.matrix qs) := by
  intro x y hne
  simp only [matrix, Operator.controlledBy, Matrix.of_apply] at hne
  split at hne
  · exact core_keeps h x y hne
  · exact Operator.keeps_one cs x y hne

theorem conjTranspose_core (h : g.Runnable) : (g.core qs)ᴴ = g.inverse.core qs := by
  cases ht : g.target with
  | none =>
    have hk : g.kind = .gphase := h.target_eq_none_iff.mp ht
    have ha : g.inverse.angle = -g.angle := by
      simp [Gate.inverse, angleFor, hk, Kind.isParametrized]
    rw [core_of_phase ht, core_of_phase (g := g.inverse) ht, ha, Matrix.conjTranspose_smul,
      Matrix.conjTranspose_one]
    congr 1
    simp [← exp_conj]
  | some q =>
    rw [core_of_target ht, core_of_target (g := g.inverse) ht]
    ext x y
    simp only [Matrix.conjTranspose_apply, Matrix.of_apply, agreeOff_comm (x := y)]
    split
    · have hentry := congrFun₂ (Kind.conjTranspose_unitary g.kind g.angle) (extend x q) (extend y q)
      exact hentry
    · exact star_zero ℂ

theorem conjTranspose_matrix (h : g.Runnable) : (g.matrix qs)ᴴ = g.inverse.matrix qs := by
  rw [matrix, Operator.conjTranspose_controlledBy (core_keeps h.target_free), conjTranspose_core h]
  rfl

end Gate

/-! ## The matrices of sequences -/

namespace Sequence

noncomputable def matrix (qs : List Qubit) : List (Gate ℝ) → Operator qs
  | [] => 1
  | g :: gs => matrix qs gs * g.matrix qs

variable {qs : List Qubit} {gs : List (Gate ℝ)}

theorem matrix_append (gs hs : List (Gate ℝ)) :
    matrix qs (gs ++ hs) = matrix qs hs * matrix qs gs := by
  induction gs with
  | nil => exact (mul_one _).symm
  | cons g gs ih =>
    show matrix qs (gs ++ hs) * g.matrix qs = matrix qs hs * (matrix qs gs * g.matrix qs)
    rw [ih, mul_assoc]

theorem act_lift (h : On qs gs) (v : Bits qs → ℂ) :
    act gs (Bits.lift v) = Bits.lift (matrix qs gs *ᵥ v) := by
  induction gs generalizing v with
  | nil => rw [act_nil, matrix, Matrix.one_mulVec]
  | cons g gs ih =>
    obtain ⟨hg, hgs⟩ := on_cons.mp h
    rw [act_cons, Gate.act_lift hg, ih hgs, Matrix.mulVec_mulVec, matrix]

theorem matrix_inverse (h : ∀ g ∈ gs, g.Runnable) :
    matrix qs (inverse gs) = (matrix qs gs)ᴴ := by
  induction gs with
  | nil => exact Matrix.conjTranspose_one.symm
  | cons g gs ih =>
    obtain ⟨hg, hgs⟩ := List.forall_mem_cons.mp h
    have hsplit : inverse (g :: gs) = inverse gs ++ [g.inverse] := by simp [inverse]
    have hlast : matrix qs [g.inverse] = (g.matrix qs)ᴴ := by
      rw [matrix, matrix, one_mul, Gate.conjTranspose_matrix hg]
    rw [hsplit, matrix_append, hlast, ih hgs, ← Matrix.conjTranspose_mul, matrix]

theorem matrix_keeps {cs : List Qubit} (h : ∀ g ∈ gs, ∀ q ∈ g.target, q ∉ cs) :
    Operator.Keeps cs (matrix qs gs) := by
  induction gs with
  | nil => exact Operator.keeps_one cs
  | cons g gs ih =>
    obtain ⟨hg, hgs⟩ := List.forall_mem_cons.mp h
    exact (ih hgs).mul (Gate.matrix_keeps hg)

theorem matrix_controlled {cs : List Qubit} (h : ∀ g ∈ gs, ∀ q ∈ g.target, q ∉ cs) :
    matrix qs (controlled cs gs) = Operator.controlledBy cs (matrix qs gs) := by
  induction gs with
  | nil =>
    ext x y
    simp [controlled, matrix, Operator.controlledBy]
  | cons g gs ih =>
    obtain ⟨-, hgs⟩ := List.forall_mem_cons.mp h
    show matrix qs (controlled cs gs) * (g.withControls cs).matrix qs = _
    rw [ih hgs, Gate.matrix_withControls, matrix, Operator.controlledBy_mul (matrix_keeps hgs)]

/-- Sequences on the qubits of a circuit are unitary. -/
theorem matrix_mem_unitaryGroup (h : On qs gs) :
    matrix qs gs ∈ Matrix.unitaryGroup (Bits qs) ℂ := by
  rw [Matrix.mem_unitaryGroup_iff', Matrix.star_eq_conjTranspose,
    ← matrix_inverse fun g hg => (h g hg).toRunnable]
  refine Matrix.ext_of_mulVec_single fun x => lift_injective ?_
  rw [← Matrix.mulVec_mulVec, ← act_lift h.inverse, ← act_lift h, act_inverse_act h,
    Matrix.one_mulVec]

/-- Also around nothing, where a conjugation leaves out its gates. -/
theorem matrix_conjugated {vs : List (Gate ℝ)} (h : On qs vs) (gs : List (Gate ℝ)) :
    matrix qs (conjugated vs gs) = (matrix qs vs)ᴴ * matrix qs gs * matrix qs vs := by
  have hinverse : matrix qs (inverse vs) = (matrix qs vs)ᴴ :=
    matrix_inverse fun g hg => (h g hg).toRunnable
  cases gs with
  | nil =>
    have hunit := (Matrix.mem_unitaryGroup_iff'.mp (matrix_mem_unitaryGroup h))
    rw [matrix, mul_one]
    exact hunit.symm
  | cons g gs =>
    show matrix qs (vs ++ (g :: gs) ++ inverse vs) = _
    rw [matrix_append, matrix_append, hinverse, mul_assoc]

end Sequence

/-! ## The simulator -/

theorem Tensor.get_congr {β : Type} {axes : List Qubit} (t : Tensor β axes)
    {bits bits' : Assignment} (h : ∀ q ∈ axes, bits q = bits' q) : t.get bits = t.get bits' := by
  induction axes with
  | nil => rfl
  | cons q axes ih =>
    obtain ⟨hq, hqs⟩ := List.forall_mem_cons.mp h
    simp only [get, hq, ih _ hqs]

namespace State

variable {qs : List Qubit}

/-- The amplitudes of a state of the circuit, one for each of its basis states. -/
def amplitudes (s : State ℝ (axes qs)) : Bits qs → ℂ := fun x => wave s (extend x)

theorem lift_amplitudes (s : State ℝ (axes qs)) : Bits.lift (amplitudes s) = wave s := by
  funext bits
  refine congrArg Cartesian.toComplex (Tensor.get_congr s fun q hq => ?_)
  exact extend_restrict (mem_axes.mp hq) bits

end State

/-- The simulator multiplies the amplitudes by the matrix of the sequence. -/
theorem Sequence.applyTo_amplitudes {qs : List Qubit} (hn : qs.Nodup) {gs : List (Gate ℝ)}
    (h : On qs gs) (s : State ℝ (State.axes qs)) :
    ∃ t, applyTo gs s = .ok t ∧
      State.amplitudes t = matrix qs gs *ᵥ State.amplitudes s := by
  obtain ⟨t, ht, hw⟩ := realises_act h qs hn (fun _ hq => hq) s
  refine ⟨t, ht, lift_injective ?_⟩
  rw [State.lift_amplitudes, hw, ← State.lift_amplitudes s, act_lift h]

end StateSynthesis
