import StateSynthesis.Diagonal
import StateSynthesis.Preparation
import StateSynthesis.Session.Basic

/-!
Synthesis into the receivers of a session. A preparation that is given no receiver makes a circuit
of its own from the qubits it is given, or from fresh ones.
-/
namespace StateSynthesis.Action

variable {α : Type} [Scalar α]

/-- The circuit that operands are looked up in; lists and the lack of a receiver are none. -/
def frame (n : Option Nat) : Action α (Option (Circuit α)) := do
  match n with
  | some n => return (← receiver n).circuit?
  | none => return none

def synthesize (gates : Option (Circuit α) → Except (Fault α) (List (Gate α))) (n : Option Nat) :
    Action α Unit := do
  let gs ← (gates (← frame n) : Except (Fault α) _)
  deliver n gs

/-- Whether the vector was worth a warning, being zero. -/
def prepareInto (p : Preparation α) (n : Option Nat) : Action α Bool := do
  match ← (p.gates? (← frame n) : Except (Fault α) _) with
  | none => return true
  | some gs =>
    deliver n gs
    return false

/-- The receiver that was made, if none was given, and whether there was a warning. -/
def prepare (p : Preparation α) (given : Option (Object α)) : Action α (Option Nat × Bool) := do
  Tolerance.check p.tolerance
  match given with
  | some o => return (none, ← prepareInto p o.receiver?)
  | none =>
    let c ← (p.freshCircuit (← defaultName) : Except (Fault α) _)
    let n ← createReceiver (.circuit c)
    return (some n, ← prepareInto p (some n))

/-- Prepares a vector of complex numbers. Without a register it goes into new qubits, those of a new
circuit or more of the circuit that is given. -/
def prepareState (vector : List (Cartesian α)) (register : Datum α) (given : Option (Object α))
    (tolerance : Option α) : Action α (Option Nat × Bool) := do
  if vector.isEmpty then throw .emptyVector
  let tolerance := tolerance.getD (← get).defaultTolerance
  let preparation := Preparation.ofComplex tolerance vector
  let size := Preparation.registerSize vector.length
  match register, given with
  | .absent, none =>
    let n ← createCircuit (.integer size) none
    let qubits := (← circuit n).qubits.map Datum.qubit
    let (_, warned) ← prepare (preparation (.list qubits)) (some (.receiver n))
    return (some n, warned)
  | .absent, some o =>
    let n ← needReceiver (some o)
    let before := (← circuit n).qubits.length
    addFreshQubits n size
    let qubits := ((← circuit n).qubits.drop before).map Datum.qubit
    prepare (preparation (.list qubits)) (some o)
  | register, given => prepare (preparation register) given

end StateSynthesis.Action
