import StateSynthesis.Circuit.Basic
import StateSynthesis.Gate.Matrix
import StateSynthesis.Statevector.Tensor

/-!
Simulation of circuits on state vectors. The index of an entry is little-endian: bit `i` belongs to
the `i`-th qubit, so the axes of the tensor are the qubits in reverse.
-/
namespace StateSynthesis

variable {α : Type} [Scalar α]

abbrev State (α : Type) (axes : List Qubit) := Tensor (Cartesian α) axes

namespace Gate

/-- A global phase has no matrix that would fit a target. -/
def applyTo {axes : List Qubit} (g : Gate α) (s : State α axes) :
    Except (Fault α) (State α axes) :=
  match g.target, g.kind.matrix? g.angle with
  | none, none => .ok (s.mapUnder g.controls (· * Kind.phaseFactor g.angle))
  | none, some m => .ok (s.mapUnder g.controls (· * m.a))
  | some q, some m => .ok (s.onTarget g.controls q m.apply)
  | some _, none => .error .targetedPhase

end Gate

namespace Sequence

def applyTo {axes : List Qubit} (gs : List (Gate α)) (s : State α axes) :
    Except (Fault α) (State α axes) :=
  gs.foldlM (fun s g => g.applyTo s) s

end Sequence

namespace State

def axes (qubits : List Qubit) : List Qubit := qubits.reverse

/-- The basis state with the given index. -/
def basis (qubits : List Qubit) (index : Nat) : State α (axes qubits) :=
  Tensor.ofList Cartesian.zero _
    ((List.range (dimension qubits.length)).map fun j =>
      if j = index then Cartesian.one else Cartesian.zero)

/-- The state with the given entries, of which there has to be one per index. -/
def ofEntries (qubits : List Qubit) (entries : List (Cartesian α)) :
    Except (Fault α) (State α (axes qubits)) :=
  if entries.length = dimension qubits.length then .ok (Tensor.ofList Cartesian.zero _ entries)
  else .error (.stateSize entries.length qubits.length)

end State

namespace Circuit

def applyTo (c : Circuit α) (s : State α (State.axes c.qubits)) :
    Except (Fault α) (List (Cartesian α)) :=
  (Sequence.applyTo c.gates s).map Tensor.toList

/-- The state that the circuit makes of the all-zero state. -/
def statevector (c : Circuit α) : Except (Fault α) (List (Cartesian α)) :=
  c.applyTo (State.basis c.qubits 0)

/-- The images of all basis states. -/
def unitary (c : Circuit α) : Except (Fault α) (List (List (Cartesian α))) :=
  (List.range (dimension c.qubits.length)).mapM fun j => c.applyTo (State.basis c.qubits j)

end Circuit

end StateSynthesis
