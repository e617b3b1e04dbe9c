/-!
The number of basis states of a register of qubits, and of control states.
-/
namespace StateSynthesis

def dimension (qubits : Nat) : Nat := Nat.pow 2 qubits

theorem dimension_succ (n : Nat) : dimension (n + 1) = dimension n + dimension n := by
  show Nat.pow 2 n * 2 = _
  exact Nat.mul_two _

end StateSynthesis
