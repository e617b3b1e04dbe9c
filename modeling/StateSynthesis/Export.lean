import StateSynthesis.Circuit.Basic

/-!
Export of circuits to a library of uncontrolled base gates. Uncontrolled global phases are added up,
modulo a turn; under controls a global phase is a phase gate on the controls.
-/
namespace StateSynthesis

variable {α : Type} [Scalar α]

inductive BaseGate where
  | rx | ry | rz | h | s | sdg | x | p
  deriving DecidableEq

def BaseGate.name : BaseGate → String
  | rx => "rx"
  | ry => "ry"
  | rz => "rz"
  | h => "h"
  | s => "s"
  | sdg => "sdg"
  | x => "x"
  | p => "p"

/-- A base gate under a number of controls, on qubits by index, controls first. -/
structure Instruction (α : Type) where
  base : BaseGate
  controls : Nat
  parameters : List α
  operands : List Nat

structure Exported (α : Type) where
  registers : List String
  globalPhase : α
  instructions : List (Instruction α)

namespace Gate

/-- The base gate of a kind with a target, and its parameters. -/
def base (g : Gate α) : Except (Fault α) (BaseGate × List α) :=
  match g.kind with
  | .rx => .ok (.rx, [g.angle])
  | .ry => .ok (.ry, [g.angle])
  | .rz => .ok (.rz, [g.angle])
  | .h => .ok (.h, [])
  | .s => .ok (.s, [])
  | .sdg => .ok (.sdg, [])
  | .x => .ok (.x, [])
  | .gphase => .error (.noCounterpart .gphase)

def exported (qubits : List Qubit) (g : Gate α) : Except (Fault α) (Instruction α) :=
  let index (q : Qubit) := qubits.idxOf q
  match g.kind with
  | .gphase => .ok ⟨.p, g.controls.length - 1, [g.angle], g.controls.map index⟩
  | _ => do
    let (base, parameters) ← g.base
    return ⟨base, g.controls.length, parameters, g.qubits.map index⟩

def isGlobalPhase (g : Gate α) : Bool := g.kind == .gphase && g.controls.isEmpty

end Gate

namespace Circuit

def globalPhase (c : Circuit α) : α :=
  (c.gates.filter Gate.isGlobalPhase).foldl (fun t g => Scalar.wrap (t + g.angle)) Scalar.zero

def exported (c : Circuit α) : Except (Fault α) (Exported α) := do
  let instructions ← (c.gates.filter (!·.isGlobalPhase)).mapM (Gate.exported c.qubits)
  return ⟨c.qubits.map Qubit.identifier, c.globalPhase, instructions⟩

end Circuit

end StateSynthesis
