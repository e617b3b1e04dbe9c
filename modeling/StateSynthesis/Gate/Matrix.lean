import StateSynthesis.Cartesian
import StateSynthesis.Gate.Basic

/-!
The matrices of the kinds without their controls: two by two on a target, one by one for a global
phase.
-/
namespace StateSynthesis

variable {α : Type} [Scalar α]

open Scalar

/-- The rows of a matrix on one qubit. -/
structure Matrix2 (α : Type) where
  a : Cartesian α
  b : Cartesian α
  c : Cartesian α
  d : Cartesian α

def Matrix2.rows (m : Matrix2 α) : List (List (Cartesian α)) := [[m.a, m.b], [m.c, m.d]]

/-- The image of the column `(z, w)`. A product of matrices carries a scale, here one, which every
sum is multiplied by: it changes no finite value, but an infinite part takes the other part with
it. -/
def Matrix2.apply (m : Matrix2 α) (z w : Cartesian α) : Cartesian α × Cartesian α :=
  (Cartesian.one * (m.a * z + m.b * w), Cartesian.one * (m.c * z + m.d * w))

namespace Kind

/-- The phase factor of a global phase. -/
def phaseFactor (angle : α) : Cartesian α := Cartesian.cis angle

/-- The matrix of a kind on its target; a global phase has none. -/
def matrix? (k : Kind) (angle : α) : Option (Matrix2 α) :=
  let c := Cartesian.ofReal (cos (half angle))
  let s := Cartesian.ofReal (sin (half angle))
  let i : Cartesian α := Cartesian.imaginary
  match k with
  | .rx => some ⟨c, -i * s, -i * s, c⟩
  | .ry => some ⟨c, -s, s, c⟩
  | .rz => some ⟨Cartesian.cis (-(half angle)), .zero, .zero, Cartesian.cis (half angle)⟩
  | .gphase => none
  | .h =>
    let r := Cartesian.ofReal (one / sqrt two)
    some ⟨r, r, r, -r⟩
  | .s => some ⟨.one, .zero, .zero, i⟩
  | .sdg => some ⟨.one, .zero, .zero, -i⟩
  | .x => some ⟨.zero, .one, .one, .zero⟩

def matrixRows (k : Kind) (angle : α) : List (List (Cartesian α)) :=
  match k.matrix? angle with
  | some m => m.rows
  | none => [[phaseFactor angle]]

end Kind

end StateSynthesis
