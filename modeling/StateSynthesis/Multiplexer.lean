import StateSynthesis.Angles
import StateSynthesis.Operands
import StateSynthesis.Tolerance

/-!
Multiplexed rotations: the control qubits choose which of the angles is applied to the target. The
halves of the angle vector are added and subtracted; the sum needs one control less, and the
difference as well once it stands between two flips of the target under the dropped control.
-/
namespace StateSynthesis

variable {α : Type} [Scalar α]

namespace Multiplexer

open Scalar

/-- A gate for the first angle, unless it is within the tolerance. -/
def leaf (tolerance : α) (gate : α → Gate α) (angles : List α) : List (Gate α) :=
  let a := angles.headD zero
  if Tolerance.exceeds tolerance a then [gate a] else []

/-- About `z`, with the most significant control first. -/
def aboutZ (tolerance : α) (target : Qubit) : List Qubit → List α → List (Gate α)
  | [], angles => leaf tolerance (Gate.rz · target) angles
  | c :: cs, angles =>
    aboutZ tolerance target cs (Angles.even angles) ++
      if Tolerance.anyReaches tolerance (Angles.odd angles) then
        Sequence.conjugated [Gate.x target [c]] (aboutZ tolerance target cs (Angles.odd angles))
      else []

/-- The outer controls act as one more control, most significant, whose zero has the angles zero. -/
def underOuter (tolerance : α) (target : Qubit) (controls outer : List Qubit) (angles : List α) :
    List (Gate α) :=
  if outer.isEmpty then aboutZ tolerance target controls angles
  else
    let doubled := List.replicate angles.length zero ++ angles
    aboutZ tolerance target controls (Angles.even doubled) ++
      if Tolerance.anyReaches tolerance (Angles.odd doubled) then
        Sequence.conjugated [Gate.x target outer]
          (aboutZ tolerance target controls (Angles.odd doubled))
      else []

/-- The gates for controls from the least significant one on. The other axes are brought to `z` by
basis changes; a rotation about the identity is a global phase of half the angle. -/
def gates (tolerance : α) (axis : Axis) (controls : List Qubit) (target : Qubit)
    (outer : List Qubit) (angles : List α) : List (Gate α) :=
  match axis with
  | .identity => leaf tolerance (fun a => Gate.gphase (half (-a)) outer) angles
  | axis => axis.basisChanges.foldr (fun k body => Sequence.conjugated [Gate.basis k target] body)
      (underOuter tolerance target controls.reverse outer angles)

end Multiplexer

/-- The gates of a sequence, or of its inverse. -/
def Sequence.oriented (adjoint : Bool) (gs : List (Gate α)) : List (Gate α) :=
  if adjoint then Sequence.inverse gs else gs

structure MultiplexedRotation (α : Type) where
  tolerance : α
  angles : List α
  axis : Datum α
  controls : Datum α
  target : Datum α
  outer : Datum α
  adjoint : Bool

/-- Everything is checked before the first gate. -/
def MultiplexedRotation.gates (r : MultiplexedRotation α) (frame : Option (Circuit α)) :
    Except (Fault α) (List (Gate α)) := do
  Tolerance.check r.tolerance
  let axis ← Axis.ofDatum r.axis
  let controls ← Operands.resolveAll frame r.controls
  let outer ← Operands.resolveAll frame r.outer
  let target ← Operands.resolve frame r.target
  if axis == .identity && !controls.isEmpty then throw .controlledIdentity
  Operands.distinct (controls ++ outer ++ [target])
  let angles ← Angles.pad controls.length r.angles
  return Sequence.oriented r.adjoint
    (Multiplexer.gates r.tolerance axis controls target outer angles)

end StateSynthesis
