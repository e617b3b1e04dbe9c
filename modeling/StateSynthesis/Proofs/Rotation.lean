import StateSynthesis.Gate.Matrix
import StateSynthesis.Proofs.Exact

/-!
Rotations of one qubit. The rotation by `t` about an axis with Pauli matrix `P` is
`cos (t/2) - i sin (t/2) P`; about the identity it is the phase `e^(-it/2)` (`rotation_identity`).
Rotations about one axis add their angles (`rotation_mul`), a basis change carries one axis over to
another (`conjugate_rotation`), and the matrices of the gate kinds are rotations or turn one axis
into the next (`basisChange_rotation`). The matrix of the inverse kind is the inverse
(`unitary_inverse_mul`) and the conjugate transpose (`conjTranspose_unitary`).
-/
namespace StateSynthesis

open Complex

/-- Phases add up. -/
theorem exp_add_mul_I (x y : ℝ) : exp ((x + y : ℝ) * I) = exp (x * I) * exp (y * I) := by
  rw [ofReal_add, add_mul, exp_add]

/-- A matrix on one qubit; the index `false` belongs to the basis state zero. -/
abbrev QubitMatrix := Matrix Bool Bool ℂ

namespace Axis

/-- The Pauli matrix of an axis. -/
def pauli : Axis → QubitMatrix
  | x => Matrix.of fun i j => if i = j then 0 else 1
  | y => Matrix.of fun i j => if i = j then 0 else if i then I else -I
  | z => Matrix.of fun i j => if i = j then (if i then -1 else 1) else 0
  | identity => 1

noncomputable def rotation (p : Axis) (t : ℝ) : QubitMatrix :=
  (Real.cos (t / 2) : ℂ) • (1 : QubitMatrix) - (I * Real.sin (t / 2)) • p.pauli

theorem pauli_mul_self (p : Axis) : p.pauli * p.pauli = 1 := by
  ext i j
  cases p <;> cases i <;> cases j <;> simp [pauli, Matrix.mul_apply]

@[simp] theorem rotation_zero (p : Axis) : p.rotation 0 = 1 := by simp [rotation]

theorem rotation_mul (p : Axis) (s t : ℝ) : p.rotation s * p.rotation t = p.rotation (s + t) := by
  have hcos : Real.cos ((s + t) / 2) =
      Real.cos (s / 2) * Real.cos (t / 2) - Real.sin (s / 2) * Real.sin (t / 2) := by
    rw [add_div, Real.cos_add]
  have hsin : Real.sin ((s + t) / 2) =
      Real.sin (s / 2) * Real.cos (t / 2) + Real.cos (s / 2) * Real.sin (t / 2) := by
    rw [add_div, Real.sin_add]
  have hI : I * Real.sin (s / 2) * (I * Real.sin (t / 2)) =
      -(Real.sin (s / 2) * Real.sin (t / 2) : ℂ) := by
    linear_combination (Real.sin (s / 2) * Real.sin (t / 2) : ℂ) * I_mul_I
  simp only [rotation, hcos, hsin, sub_mul, mul_sub, smul_mul_smul_comm, mul_one, one_mul,
    pauli_mul_self, hI]
  push_cast
  module

theorem rotation_neg_mul (p : Axis) (t : ℝ) : p.rotation (-t) * p.rotation t = 1 := by
  rw [rotation_mul, neg_add_cancel, rotation_zero]

theorem rotation_mul_neg (p : Axis) (t : ℝ) : p.rotation t * p.rotation (-t) = 1 := by
  rw [rotation_mul, add_neg_cancel, rotation_zero]

theorem conjTranspose_pauli (p : Axis) : p.pauli.conjTranspose = p.pauli := by
  ext i j
  cases p <;> cases i <;> cases j <;> simp [pauli]

theorem conjTranspose_rotation (p : Axis) (t : ℝ) :
    (p.rotation t).conjTranspose = p.rotation (-t) := by
  have hcos : star (Real.cos (t / 2) : ℂ) = Real.cos (-t / 2) := by
    rw [neg_div, Real.cos_neg]
    exact conj_ofReal _
  have hsin : star (I * Real.sin (t / 2)) = I * Real.sin (-t / 2) := by
    have hreal : star (Real.sin (t / 2) : ℂ) = Real.sin (t / 2) := conj_ofReal _
    have hI : star I = -I := conj_I
    rw [neg_div, Real.sin_neg, star_mul', hreal, hI, ofReal_neg, neg_mul, mul_neg]
  rw [rotation, Matrix.conjTranspose_sub, Matrix.conjTranspose_smul, Matrix.conjTranspose_smul,
    Matrix.conjTranspose_one, conjTranspose_pauli, hcos, hsin, rotation]

/-- A basis change `w`, undone by `v`, that carries `p` over to `p'`, carries the rotations over. -/
theorem conjugate_rotation {p p' : Axis} {v w : QubitMatrix} (hvw : v * w = 1)
    (hp : v * p.pauli * w = p'.pauli) (t : ℝ) : v * p.rotation t * w = p'.rotation t := by
  simp only [rotation, mul_sub, sub_mul, Matrix.mul_smul, Matrix.smul_mul, mul_one, hvw, hp]

/-- A flip on both sides turns the rotation about `z` round. -/
theorem flip_rotation (t : ℝ) : x.pauli * z.rotation t * x.pauli = z.rotation (-t) := by
  ext i j
  cases i <;> cases j <;> simp [rotation, pauli, Matrix.mul_apply, neg_div]

theorem rotation_identity (t : ℝ) :
    identity.rotation t = exp ((-(t / 2) : ℝ) * I) • (1 : QubitMatrix) := by
  rw [rotation, pauli, ← sub_smul, exp_mul_I, ← ofReal_cos, ← ofReal_sin, Real.cos_neg,
    Real.sin_neg]
  push_cast
  ring_nf

theorem rotation_z_apply (t : ℝ) (i j : Bool) :
    z.rotation t i j = if i = j then exp ((if i then t / 2 else -(t / 2) : ℝ) * I) else 0 := by
  rw [rotation, exp_mul_I]
  cases i <;> cases j <;> simp [pauli] <;> ring

end Axis

/-! ## The matrices of the gate kinds -/

def Matrix2.toMatrix (m : Matrix2 ℝ) : QubitMatrix :=
  Matrix.of fun i j => (if i then (if j then m.d else m.c) else (if j then m.b else m.a)).toComplex

/-- The image of a column under the matrix, entry by entry. -/
theorem Matrix2.toComplex_apply (m : Matrix2 ℝ) (u v : Cartesian ℝ) :
    (m.apply u v).1.toComplex =
        m.toMatrix false false * u.toComplex + m.toMatrix false true * v.toComplex ∧
      (m.apply u v).2.toComplex =
        m.toMatrix true false * u.toComplex + m.toMatrix true true * v.toComplex := by
  constructor <;> simp [apply, toMatrix]

namespace Kind

/-- The matrix of a kind; for a global phase, a multiple of the identity. -/
noncomputable def unitary (k : Kind) (a : ℝ) : QubitMatrix :=
  match k.matrix? a with
  | some m => m.toMatrix
  | none => exp (a * I) • (1 : QubitMatrix)

theorem unitary_rx (a : ℝ) : rx.unitary a = Axis.x.rotation a := by
  ext i j
  cases i <;> cases j <;> simp [unitary, matrix?, Matrix2.toMatrix, Axis.rotation, Axis.pauli]

theorem unitary_ry (a : ℝ) : ry.unitary a = Axis.y.rotation a := by
  have hI (w : ℂ) : I * w * I = -w := by linear_combination w * I_mul_I
  ext i j
  cases i <;> cases j <;>
    simp [unitary, matrix?, Matrix2.toMatrix, Axis.rotation, Axis.pauli, hI]

theorem unitary_rz (a : ℝ) : rz.unitary a = Axis.z.rotation a := by
  ext i j
  rw [Axis.rotation_z_apply]
  cases i <;> cases j <;> simp [unitary, matrix?, Matrix2.toMatrix]

theorem unitary_x (a : ℝ) : x.unitary a = Axis.x.pauli := by
  ext i j
  cases i <;> cases j <;> simp [unitary, matrix?, Matrix2.toMatrix, Axis.pauli]

theorem unitary_h (a : ℝ) :
    h.unitary a = ((1 / Real.sqrt 2 : ℝ) : ℂ) • (Axis.x.pauli + Axis.z.pauli) := by
  ext i j
  cases i <;> cases j <;> simp [unitary, matrix?, Matrix2.toMatrix, Axis.pauli]

theorem unitary_s (a : ℝ) :
    s.unitary a = Matrix.of fun i j => if i = j then (if i then I else 1) else 0 := by
  ext i j
  cases i <;> cases j <;> simp [unitary, matrix?, Matrix2.toMatrix]

theorem unitary_sdg (a : ℝ) :
    sdg.unitary a = Matrix.of fun i j => if i = j then (if i then -I else 1) else 0 := by
  ext i j
  cases i <;> cases j <;> simp [unitary, matrix?, Matrix2.toMatrix]

/-- The square of the factor in the Hadamard matrix. -/
theorem inv_sqrt_two_mul_self :
    ((1 / Real.sqrt 2 : ℝ) : ℂ) * ((1 / Real.sqrt 2 : ℝ) : ℂ) = 1 / 2 := by
  have h : (1 / Real.sqrt 2) * (1 / Real.sqrt 2) = (1 / 2 : ℝ) := by
    rw [div_mul_div_comm, one_mul, Real.mul_self_sqrt (by norm_num)]
  rw [← ofReal_mul, h]
  norm_num

theorem unitary_h_mul_self (a b : ℝ) : h.unitary a * h.unitary b = 1 := by
  rw [unitary_h, unitary_h, smul_mul_smul_comm, inv_sqrt_two_mul_self]
  ext i j
  cases i <;> cases j <;> simp [Axis.pauli, Matrix.mul_apply] <;> norm_num

/-- The matrix of the inverse kind, at the angle that the inverse gate has, is the inverse. -/
theorem unitary_inverse_mul (k : Kind) (a : ℝ) :
    k.inverse.unitary (Gate.angleFor k (-a)) * k.unitary a = 1 := by
  cases k with
  | rx => exact (congrArg₂ _ (unitary_rx _) (unitary_rx _)).trans (Axis.rotation_neg_mul _ a)
  | ry => exact (congrArg₂ _ (unitary_ry _) (unitary_ry _)).trans (Axis.rotation_neg_mul _ a)
  | rz => exact (congrArg₂ _ (unitary_rz _) (unitary_rz _)).trans (Axis.rotation_neg_mul _ a)
  | gphase =>
    show exp (((-a : ℝ) : ℂ) * I) • (1 : QubitMatrix) * (exp ((a : ℂ) * I) • 1) = 1
    rw [smul_mul_smul_comm, ← exp_add, mul_one, ofReal_neg, neg_mul, neg_add_cancel, exp_zero,
      one_smul]
  | h => exact unitary_h_mul_self _ _
  | s =>
    show sdg.unitary _ * s.unitary a = 1
    rw [unitary_s, unitary_sdg]
    ext i j
    cases i <;> cases j <;> simp [Matrix.mul_apply]
  | sdg =>
    show s.unitary _ * sdg.unitary a = 1
    rw [unitary_s, unitary_sdg]
    ext i j
    cases i <;> cases j <;> simp [Matrix.mul_apply]
  | x => exact (congrArg₂ _ (unitary_x _) (unitary_x _)).trans (Axis.pauli_mul_self _)

/-- The matrix of the inverse kind is also the conjugate transpose. -/
theorem conjTranspose_unitary (k : Kind) (a : ℝ) :
    (k.unitary a).conjTranspose = k.inverse.unitary (Gate.angleFor k (-a)) := by
  cases k with
  | rx => rw [unitary_rx, Axis.conjTranspose_rotation]; exact (unitary_rx _).symm
  | ry => rw [unitary_ry, Axis.conjTranspose_rotation]; exact (unitary_ry _).symm
  | rz => rw [unitary_rz, Axis.conjTranspose_rotation]; exact (unitary_rz _).symm
  | gphase =>
    show (exp ((a : ℂ) * I) • (1 : QubitMatrix)).conjTranspose = exp (((-a : ℝ) : ℂ) * I) • 1
    rw [Matrix.conjTranspose_smul, Matrix.conjTranspose_one]
    congr 1
    simp [← exp_conj]
  | h =>
    show (h.unitary a).conjTranspose = h.unitary _
    rw [unitary_h, unitary_h, Matrix.conjTranspose_smul, Matrix.conjTranspose_add,
      Axis.conjTranspose_pauli, Axis.conjTranspose_pauli]
    congr 1
    exact conj_ofReal _
  | s =>
    show (s.unitary a).conjTranspose = sdg.unitary _
    rw [unitary_s, unitary_sdg]
    ext i j
    cases i <;> cases j <;> simp
  | sdg =>
    show (sdg.unitary a).conjTranspose = s.unitary _
    rw [unitary_s, unitary_sdg]
    ext i j
    cases i <;> cases j <;> simp
  | x =>
    show (x.unitary a).conjTranspose = x.unitary _
    rw [unitary_x, unitary_x, Axis.conjTranspose_pauli]

/-- The basis changes on the way from `y` over `x` to `z`. -/
theorem basisChange_rotation {p p' : Axis} {k : Kind} (h : p.basisChange? = some (k, p'))
    (a t : ℝ) : k.inverse.unitary (Gate.angleFor k (-a)) * p'.rotation t * k.unitary a =
      p.rotation t := by
  refine Axis.conjugate_rotation (unitary_inverse_mul k a) ?_ t
  cases p with
  | x =>
    cases h
    show Kind.h.unitary _ * Axis.z.pauli * Kind.h.unitary a = Axis.x.pauli
    rw [unitary_h, unitary_h, Matrix.smul_mul, smul_mul_smul_comm, inv_sqrt_two_mul_self]
    ext i j
    cases i <;> cases j <;> simp [Axis.pauli, Matrix.mul_apply] <;> norm_num
  | y =>
    cases h
    show Kind.s.unitary _ * Axis.x.pauli * Kind.sdg.unitary a = Axis.y.pauli
    rw [unitary_s, unitary_sdg]
    ext i j
    cases i <;> cases j <;> simp [Axis.pauli, Matrix.mul_apply]
  | z => cases h
  | identity => cases h

end Kind

end StateSynthesis
