import StateSynthesis.Multiplexer

/-!
Diagonal unitaries `|j⟩ ↦ e^(i angles[j]) |j⟩`. The most significant qubit takes the difference of
the halves as a multiplexed rotation about `z`; the sum is left to the other qubits, and what
remains after the last one is a global phase.
-/
namespace StateSynthesis

variable {α : Type} [Scalar α]

open Scalar

/-- The register from its most significant qubit on. The rotation turns the two values of the
target by plus and minus half its angle, hence the factor of minus two. -/
def Diagonal.phases (tolerance : α) : List Qubit → List α → List (Gate α)
  | [], angles => Multiplexer.leaf tolerance (Gate.gphase · []) angles
  | q :: qs, angles =>
    Multiplexer.aboutZ tolerance q qs ((Angles.odd angles).map (-two * ·)) ++
      phases tolerance qs (Angles.even angles)

structure DiagonalUnitary (α : Type) where
  tolerance : α
  angles : List α
  register : Datum α
  controls : Datum α
  adjoint : Bool

def DiagonalUnitary.gates (d : DiagonalUnitary α) (frame : Option (Circuit α)) :
    Except (Fault α) (List (Gate α)) := do
  Tolerance.check d.tolerance
  let register ← Operands.resolveAll frame d.register
  let controls ← Operands.resolveAll frame d.controls
  if register.isEmpty then throw .emptyDiagonal
  Operands.distinct (register ++ controls)
  let angles ← Angles.pad register.length d.angles
  return Sequence.controlled controls
    (Sequence.oriented d.adjoint (Diagonal.phases d.tolerance register.reverse angles))

end StateSynthesis
