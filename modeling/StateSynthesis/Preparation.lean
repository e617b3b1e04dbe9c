import StateSynthesis.Amplitude.Bloch
import StateSynthesis.Amplitude.Entry
import StateSynthesis.Multiplexer

/-!
State preparation. A state is disentangled qubit by qubit down to the all-zero state; preparing it
is the inverse of that. On every level a rotation about `z` aligns the phases of each pair of
amplitudes, a rotation about `y` moves the weight into the zero of the qubit, and the merged vector
is left to the other qubits. What remains at the end is a global phase.
-/
namespace StateSynthesis

variable {α : Type} [Scalar α]

open Scalar

namespace Preparation

/-- The gates that disentangle the register, from its least significant qubit on. -/
def disentangle (tolerance : α) : List Qubit → List (Amplitude α) → List (Gate α)
  | [], as => Multiplexer.leaf tolerance (fun t => Gate.gphase (-t) []) (as.map Amplitude.phase)
  | q :: qs, as =>
    let level := Bloch.ofVector as
    let phis := level.map Bloch.phi
    let thetas := level.map Bloch.theta
    let merged := level.map Bloch.merged
    (if Tolerance.anyReaches tolerance phis then
        Multiplexer.gates tolerance .z qs q [] (phis.map (- ·))
      else []) ++
    ((if Tolerance.anyReaches tolerance thetas then
        Multiplexer.gates tolerance .y qs q [] (thetas.map (- ·))
      else []) ++
    (if qs.isEmpty || merged.any (fun a => Tolerance.exceeds tolerance a.magnitude) then
        disentangle tolerance qs merged
      else []))

/-- What a caller is told who hands over a vector of zeros. -/
def zeroWarning : String :=
  "The provided coefficient vector has zero norm. No gates were emitted."

/-- A magnitude that is not a number is not zero. -/
def isZero (as : List (Amplitude α)) : Bool := as.all fun a => a.magnitude == Scalar.zero

end Preparation

structure Unpreparation (α : Type) where
  tolerance : α
  coefficients : List (Entry α)
  controls : Datum α
  target : Datum α

def Unpreparation.gates (u : Unpreparation α) (frame : Option (Circuit α)) :
    Except (Fault α) (List (Gate α)) := do
  Tolerance.check u.tolerance
  let controls ← Operands.resolveAll frame u.controls
  let target ← Operands.resolve frame u.target
  Operands.distinct (controls ++ [target])
  let as ← Entry.pad (dimension (controls.length + 1)) u.coefficients
  return Preparation.disentangle u.tolerance (target :: controls) as

structure Preparation (α : Type) where
  tolerance : α
  coefficients : List (Entry α)
  register : Datum α
  controls : Datum α
  adjoint : Bool

namespace Preparation

/-- Of amplitudes, without a tolerance. -/
def exact (coefficients : List (Entry α)) (register controls : Datum α) (adjoint : Bool) :
    Preparation α :=
  ⟨Scalar.zero, coefficients, register, controls, adjoint⟩

/-- Of real numbers. -/
def ofReals (tolerance : α) (values : List α) (register controls : Datum α) (adjoint : Bool) :
    Preparation α :=
  ⟨tolerance, values.map fun x => .ok (Amplitude.ofReal x), register, controls, adjoint⟩

/-- Of real numbers, without a tolerance. -/
def exactOfReals (values : List α) (register controls : Datum α) (adjoint : Bool) :
    Preparation α :=
  ofReals Scalar.zero values register controls adjoint

/-- Of complex numbers, neither under controls nor inverted. -/
def ofComplex (tolerance : α) (vector : List (Cartesian α)) (register : Datum α) :
    Preparation α :=
  ⟨tolerance, vector.map fun z => .ok (Amplitude.ofCartesian z), register, .list [], false⟩

/-- The circuit of all qubits among register and controls, for a caller who names none. -/
def freshCircuit (p : Preparation α) (name : String) : Except (Fault α) (Circuit α) := do
  let operands := (← p.register.items) ++ (← p.controls.items)
  (operands.filterMap Datum.qubit?).foldlM
    (fun c q => if c.qubits.contains q then pure c else c.addQubit q) (Circuit.empty name)

/-- The gates, or nothing for a vector of zeros, which is no state. -/
def gates? (p : Preparation α) (frame : Option (Circuit α)) :
    Except (Fault α) (Option (List (Gate α))) := do
  let register ← Operands.resolveAll frame p.register
  let controls ← Operands.resolveAll frame p.controls
  if register.isEmpty then throw .emptyRegister
  Operands.distinct (register ++ controls)
  let as ← Entry.pad (dimension register.length) p.coefficients
  if isZero as then return none
  return some (Sequence.controlled controls
    (Sequence.oriented (!p.adjoint) (disentangle p.tolerance register as)))

/-- The least register that holds a vector of length `n`, of one qubit or more. -/
def registerSize (n : Nat) : Nat :=
  max 1 (if dimension n.log2 == n then n.log2 else n.log2 + 1)

end Preparation

end StateSynthesis
