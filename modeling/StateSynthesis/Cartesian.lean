import StateSynthesis.Scalar

/-!
Complex numbers by real and imaginary part. Products are written out in full, so that a part which
is zero still takes part in the arithmetic.
-/
namespace StateSynthesis

structure Cartesian (α : Type) where
  re : α
  im : α

namespace Cartesian

variable {α : Type} [Scalar α]

open Scalar

def ofReal (x : α) : Cartesian α := ⟨x, zero⟩

def zero : Cartesian α := ofReal Scalar.zero
def one : Cartesian α := ofReal Scalar.one
def imaginary : Cartesian α := ⟨Scalar.zero, Scalar.one⟩

def add (z w : Cartesian α) : Cartesian α := ⟨z.re + w.re, z.im + w.im⟩
def sub (z w : Cartesian α) : Cartesian α := ⟨z.re - w.re, z.im - w.im⟩
def neg (z : Cartesian α) : Cartesian α := ⟨-z.re, -z.im⟩
def mul (z w : Cartesian α) : Cartesian α :=
  ⟨z.re * w.re - z.im * w.im, z.re * w.im + z.im * w.re⟩

instance : Add (Cartesian α) := ⟨add⟩
instance : Sub (Cartesian α) := ⟨sub⟩
instance : Neg (Cartesian α) := ⟨neg⟩
instance : Mul (Cartesian α) := ⟨mul⟩

/-- The point of the unit circle at the angle `t`. -/
def cis (t : α) : Cartesian α := ⟨cos t, sin t⟩

def modulus (z : Cartesian α) : α := hypot z.re z.im

def argument (z : Cartesian α) : α := arctan z.im z.re

def same (z w : Cartesian α) : Bool := z.re == w.re && z.im == w.im

end Cartesian

end StateSynthesis
