import StateSynthesis.Circuit.Basic

/-!
Circuits made from a circuit, on the same qubits, and the census of its gates: each name with one
`c` per control, in the order of first appearance.
-/
namespace StateSynthesis

variable {α : Type}

namespace Circuit

def clear (c : Circuit α) : Circuit α := { c with gates := [] }

def inverse [Scalar α] (c : Circuit α) : Circuit α := { c with gates := Sequence.inverse c.gates }

end Circuit

def Gate.censusName (g : Gate α) : String :=
  String.ofList (List.replicate g.controls.length 'c') ++ g.kind.name

def countName (n : String) : List (String × Nat) → List (String × Nat)
  | [] => [(n, 1)]
  | (m, k) :: rest => if m = n then (m, k + 1) :: rest else (m, k) :: countName n rest

namespace Circuit

def census (c : Circuit α) : List (String × Nat) :=
  (c.gates.map Gate.censusName).foldl (fun counts n => countName n counts) []

def cnotCount (c : Circuit α) : Nat := (c.census.lookup "cx").getD 0

end Circuit

end StateSynthesis
