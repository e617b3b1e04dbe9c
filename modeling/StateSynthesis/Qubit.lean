/-!
Qubits. A qubit is told apart by the token it was created with; its identifier is a name for
readers, and two qubits may share it until they meet in one circuit.
-/
namespace StateSynthesis

structure Qubit where
  token : Nat
  identifier : String
  deriving DecidableEq, Inhabited

namespace Qubit

/-- How a qubit appears inside a list or a gate. -/
def shown (q : Qubit) : String := "Qubit(" ++ q.identifier ++ ")"

/-- The qubit at an index; negative indices count from the end. -/
def at? (qs : List Qubit) (i : Int) : Option Qubit :=
  if 0 ≤ i then qs[i.toNat]?
  else if -(qs.length : Int) ≤ i then qs[(qs.length + i).toNat]?
  else none

end Qubit

end StateSynthesis
