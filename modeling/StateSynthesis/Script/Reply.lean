import StateSynthesis.Cartesian
import StateSynthesis.Export
import StateSynthesis.Session.Basic

/-!
Answers to commands, and reports: the answer or the fault of a step, what the step wrote to its
receiver, and the reports of its body. An environment that could not be entered has no body, and is
reported like a step.
-/
namespace StateSynthesis.Script

inductive Reply (α : Type) where
  | done
  | qubit (q : Qubit)
  /-- A new list, by its number. -/
  | list (n : Nat)
  /-- A new circuit or a copy of a list, by its number, and whether there was a warning. -/
  | made (n : Nat) (r : Sink α) (warned : Bool)
  | receiver (r : Sink α)
  | added (q : Qubit)
  | same (b : Bool)
  | distinct (n : Nat)
  | sum (ds : List (Datum α))
  | gate (g : Gate α)
  | gates (gs : List (Gate α))
  | matrix (rows : List (List (Cartesian α)))
  | base (b : BaseGate) (parameters : List α)
  | census (counts : List (String × Nat)) (cnots : Nat)
  | state (entries : List (Cartesian α))
  | unitary (columns : List (List (Cartesian α)))
  | agreement (b : Bool)
  | exported (e : Exported α)
  /-- The qubits of the receiver after a preparation, if it is a circuit. -/
  | prepared (qubits : Option (List Qubit)) (warned : Bool)

namespace Reply

variable {α : Type}

/-- A reply that shows all gates of a receiver. -/
def isDescription : Reply α → Bool
  | made .. | receiver _ => true
  | _ => false

/-- What the handle of the step stands for afterwards. -/
def object? : Reply α → Option (Object α)
  | qubit q | added q => some (.qubit q)
  | list n | made n .. => some (.receiver n)
  | gate g => some (.gate g)
  | _ => none

end Reply

/-- The number of gates in a receiver after a step, and those that the step added. -/
structure Emission (α : Type) where
  length : Nat
  added : List (Gate α)

inductive Report (α : Type) where
  | step (outcome : Except (Fault α) (Reply α)) (emission : Option (Emission α))
  | scope (body : List (Report α)) (failure : Option (Fault α)) (emission : Option (Emission α))

/-- The fault that ended a step. -/
def Report.failure? {α : Type} : Report α → Option (Fault α)
  | step (.error f) _ => some f
  | step (.ok _) _ => none
  | scope _ failure _ => failure

end StateSynthesis.Script
