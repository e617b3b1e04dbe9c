import StateSynthesis.Circuit.Basic

/-!
Qubit operands of the synthesis. Within a circuit an index stands for its qubit and every qubit has
to belong to the circuit; without one only qubits are understood.
-/
namespace StateSynthesis.Operands

variable {α : Type}

def lookUp (c : Circuit α) (d : Datum α) : Except (Fault α) (Datum α) :=
  match d.integer? with
  | none => .ok d
  | some i => match c.qubitAt? i with
    | some q => .ok (.qubit q)
    | none => .error (.indexOutOfRange d c.name)

def asQubit (d : Datum α) : Except (Fault α) Qubit :=
  match d.qubit? with
  | some q => .ok q
  | none => .error (.notAQubit d)

def resolve (frame : Option (Circuit α)) (d : Datum α) : Except (Fault α) Qubit :=
  match frame with
  | none => asQubit d
  | some c => do
    let q ← asQubit (← lookUp c d)
    if c.qubits.contains q then return q else throw (.foreignQubit q c.name)

def resolveAll (frame : Option (Circuit α)) (d : Datum α) : Except (Fault α) (List Qubit) := do
  (← d.items).mapM (resolve frame)

def distinct (qs : List Qubit) : Except (Fault α) Unit :=
  if qs.Nodup then .ok () else .error (.overlappingQubits qs)

end StateSynthesis.Operands
