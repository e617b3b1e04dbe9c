import StateSynthesis.Statevector.Simulation

/-!
Tracing gates on a register of numbered qubits: each gate is given by kind and positions, built,
and applied before the next one is looked at.
-/
namespace StateSynthesis

variable {α : Type}

/-- A gate on numbered qubits, of unchecked parts. -/
structure IndexedGate (α : Type) where
  kind : Datum α
  target : Datum α
  controls : Datum α
  angle : Datum α

namespace Circuit

/-- A circuit whose qubits are numbered from zero on. -/
def numbered (n : Nat) : Circuit α :=
  ⟨"", (List.range n).map fun i => ⟨i, toString i⟩, []⟩

def indexed (c : Circuit α) (d : Datum α) : Except (Fault α) (Datum α) :=
  match d.integer? with
  | none => .error .wrongType
  | some i => match c.qubitAt? i with
    | some q => .ok (.qubit q)
    | none => .error .noSuchPosition

def indexedTarget (c : Circuit α) : Datum α → Except (Fault α) (Datum α)
  | .absent => .ok .absent
  | d => c.indexed d

end Circuit

variable [Scalar α]

def IndexedGate.build (c : Circuit α) (g : IndexedGate α) : Except (Fault α) (Gate α) := do
  let target ← c.indexedTarget g.target
  let controls ← (← g.controls.items).mapM c.indexed
  Gate.ofData g.kind target (.list controls) (← g.angle.toNumber)

def IndexedGate.trace (c : Circuit α) : List (IndexedGate α) → State α (State.axes c.qubits) →
    Except (Fault α) (List (List (Cartesian α)))
  | [], _ => .ok []
  | g :: gs, s => do
    let t ← (← g.build c).applyTo s
    return t.toList :: (← trace c gs t)

/-- The states after each gate, on `n` qubits from the given entries on. -/
def Statevector.trace (n : Nat) (entries : List (Cartesian α)) (gs : List (IndexedGate α)) :
    Except (Fault α) (List (List (Cartesian α))) := do
  let c : Circuit α := .numbered n
  IndexedGate.trace c gs (← State.ofEntries c.qubits entries)

end StateSynthesis
