import Mathlib
import StateSynthesis.Amplitude.Basic
import StateSynthesis.Decimal.Notation
import StateSynthesis.Tolerance

/-!
Exact arithmetic: the real numbers as scalars, and complex numbers by real and imaginary part as
points of the complex plane. The operations of a scalar are the ones of the reals
(`half_real`, `abs_real`, ...), those on parts are the ones of the plane (`toComplex_mul`, ...).
-/
namespace StateSynthesis

namespace Exact

open Decimal

/-- The number that the digits denote. Infinities and the absent number are no reals. -/
noncomputable def unsigned? (cs : List Char) : Option ℝ :=
  let whole := cs.takeWhile Char.isDigit
  let (part, rest) := fraction (cs.dropWhile Char.isDigit)
  if whole.isEmpty && part.isEmpty then none
  else (exponent? rest).map fun e =>
    (natOfDigits (whole ++ part) : ℝ) * (10 : ℝ) ^ (e - (part.length : ℤ))

noncomputable def number? (s : String) : Option ℝ := do
  let cs ← joinGroups ' ' (Text.trim (s.toList.map Text.plainDigit))
  let (negative, cs) := splitSign cs
  let x ← unsigned? cs
  return if negative then -x else x

end Exact

-- Mathlib has no instance for quotients of reals themselves, only the one of any field, and
-- whether that or the one of scalars is found first would depend on the order of the imports.
noncomputable instance divReal : Div ℝ := DivInvMonoid.toDiv

open Classical in
noncomputable instance scalarReal : Scalar ℝ where
  lt x y := decide (x < y)
  le x y := decide (x ≤ y)
  abs x := |x|
  sqrt := Real.sqrt
  sin := Real.sin
  cos := Real.cos
  arctan y x := Complex.arg ⟨x, y⟩
  hypot x y := Real.sqrt (x ^ 2 + y ^ 2)
  pi := Real.pi
  wrap x := x - (Real.pi + Real.pi) * ⌊x / (Real.pi + Real.pi)⌋
  isFinite _ := true
  integer? x := if x = (⌊x⌋ : ℝ) then some ⌊x⌋ else none
  read? := Exact.number?

/-! ## Scalars -/

@[simp] theorem zero_real : (Scalar.zero : ℝ) = 0 := Nat.cast_zero
@[simp] theorem one_real : (Scalar.one : ℝ) = 1 := Nat.cast_one
@[simp] theorem two_real : (Scalar.two : ℝ) = 2 := Nat.cast_ofNat
@[simp] theorem abs_real (x : ℝ) : Scalar.abs x = |x| := rfl
@[simp] theorem sqrt_real (x : ℝ) : Scalar.sqrt x = Real.sqrt x := rfl
@[simp] theorem sin_real (x : ℝ) : Scalar.sin x = Real.sin x := rfl
@[simp] theorem cos_real (x : ℝ) : Scalar.cos x = Real.cos x := rfl
@[simp] theorem pi_real : (Scalar.pi : ℝ) = Real.pi := rfl
@[simp] theorem arctan_real (y x : ℝ) : Scalar.arctan y x = Complex.arg ⟨x, y⟩ := rfl
@[simp] theorem hypot_real (x y : ℝ) : Scalar.hypot x y = Real.sqrt (x ^ 2 + y ^ 2) := rfl
@[simp] theorem lt_real (x y : ℝ) : Scalar.lt x y = true ↔ x < y := decide_eq_true_iff
@[simp] theorem le_real (x y : ℝ) : Scalar.le x y = true ↔ x ≤ y := decide_eq_true_iff

@[simp] theorem half_real (x : ℝ) : Scalar.half x = x / 2 := by
  show x / (Scalar.two : ℝ) = x / 2
  rw [two_real]

@[simp] theorem square_real (x : ℝ) : Scalar.square x = x ^ 2 := by
  show x * x = x ^ 2
  rw [sq]

@[simp] theorem beq_real (x y : ℝ) : (x == y) = true ↔ x = y := beq_iff_eq

/-! ## Tolerances -/

namespace Tolerance

theorem check_real {τ : ℝ} : check τ = .ok () ↔ 0 ≤ τ := by
  simp only [check, le_real, zero_real]
  split <;> simp [*]

@[simp] theorem exceeds_real (τ x : ℝ) : exceeds τ x = true ↔ τ < |x| := by simp [exceeds]

@[simp] theorem anyReaches_real (τ : ℝ) (xs : List ℝ) :
    anyReaches τ xs = true ↔ ∃ x ∈ xs, τ ≤ |x| := by simp [anyReaches]

end Tolerance

/-! ## The complex plane -/

namespace Cartesian

def toComplex (z : Cartesian ℝ) : ℂ := ⟨z.re, z.im⟩

theorem toComplex_injective : Function.Injective toComplex := by
  intro z w h
  cases z
  cases w
  simpa [toComplex] using h

@[simp] theorem toComplex_zero : (zero : Cartesian ℝ).toComplex = 0 := by
  apply Complex.ext <;> simp [toComplex, zero, ofReal]

@[simp] theorem toComplex_one : (one : Cartesian ℝ).toComplex = 1 := by
  apply Complex.ext <;> simp [toComplex, one, ofReal]

@[simp] theorem toComplex_imaginary : (imaginary : Cartesian ℝ).toComplex = Complex.I := by
  apply Complex.ext <;> simp [toComplex, imaginary]

@[simp] theorem toComplex_ofReal (x : ℝ) : (ofReal x).toComplex = (x : ℂ) := by
  apply Complex.ext <;> simp [toComplex, ofReal]

@[simp] theorem toComplex_add (z w : Cartesian ℝ) :
    (z + w).toComplex = z.toComplex + w.toComplex := rfl

@[simp] theorem toComplex_neg (z : Cartesian ℝ) : (-z).toComplex = -z.toComplex := rfl

@[simp] theorem toComplex_mul (z w : Cartesian ℝ) :
    (z * w).toComplex = z.toComplex * w.toComplex := by
  apply Complex.ext
  · show z.re * w.re - z.im * w.im = (z.toComplex * w.toComplex).re
    rw [Complex.mul_re]
    rfl
  · show z.re * w.im + z.im * w.re = (z.toComplex * w.toComplex).im
    rw [Complex.mul_im]
    rfl

@[simp] theorem toComplex_cis (t : ℝ) : (cis t).toComplex = Complex.exp (t * Complex.I) := by
  apply Complex.ext
  · simp [toComplex, cis, Complex.exp_ofReal_mul_I_re]
  · simp [toComplex, cis, Complex.exp_ofReal_mul_I_im]

end Cartesian

/-! ## Amplitudes -/

namespace Amplitude

/-- The number `magnitude · e ^ (i phase)`. -/
noncomputable def toComplex (a : Amplitude ℝ) : ℂ :=
  a.magnitude * Complex.exp (a.phase * Complex.I)

@[simp] theorem toComplex_zero : (zero : Amplitude ℝ).toComplex = 0 := by
  simp [toComplex, zero]

theorem toComplex_ofReal (x : ℝ) : (ofReal x).toComplex = (x : ℂ) := by
  by_cases h : 0 ≤ x
  · simp [ofReal, toComplex, h, abs_of_nonneg h]
  · simp [ofReal, toComplex, h, abs_of_neg (lt_of_not_ge h)]

theorem modulus_eq_norm (z : Cartesian ℝ) : z.modulus = ‖z.toComplex‖ := by
  rw [Complex.norm_eq_sqrt_sq_add_sq]
  rfl

theorem toComplex_ofCartesian (z : Cartesian ℝ) : (ofCartesian z).toComplex = z.toComplex := by
  by_cases h : z.modulus = 0
  · have hz : z.toComplex = 0 := by rw [← norm_eq_zero, ← modulus_eq_norm]; exact h
    simp [ofCartesian, toComplex, h, hz]
  · have hp : (ofCartesian z).phase = Complex.arg z.toComplex := by
      simp only [ofCartesian, zero_real, beq_real, h, ↓reduceIte]
      rfl
    have hm : (ofCartesian z).magnitude = ‖z.toComplex‖ := modulus_eq_norm z
    rw [toComplex, hp, hm]
    exact Complex.norm_mul_exp_arg_mul_I z.toComplex

end Amplitude

end StateSynthesis
