import StateSynthesis.Circuit.Basic

/-!
Plugging the gates of one circuit into another, on the same qubits or along a wiring. Every gate is
looked up, rebuilt and appended before the next one, so the first failure leaves the gates before
it.
-/
namespace StateSynthesis

variable {α : Type} [Scalar α]

/-- Pairs of a qubit and what it is wired to; the last pair of a qubit counts. -/
abbrev Wiring (α : Type) := List (Datum α × Datum α)

def Wiring.find (w : Wiring α) (q : Qubit) : Except (Fault α) (Datum α) :=
  match w.reverse.find? (fun p => p.1.qubit? == some q) with
  | some p => .ok p.2
  | none => .error (.unwired q)

def Gate.rewire (w : Wiring α) (g : Gate α) : Except (Fault α) (Gate α) := do
  let target ← match g.target with
    | none => pure Datum.absent
    | some q => w.find q
  let controls ← g.controls.mapM w.find
  ofOperands g.kind target (.ok controls) (.ok g.angle)

namespace Circuit

/-- The gate as it stands, or rewired. -/
def extendBy (w : Option (Wiring α)) (c : Circuit α) (g : Gate α) :
    Except (Fault α) (Circuit α) :=
  match w with
  | none => c.append g
  | some w => do c.append (← g.rewire w)

/-- The circuit afterwards, and the failure that ended it, if any. -/
def extend (w : Option (Wiring α)) (c : Circuit α) :
    List (Gate α) → Circuit α × Option (Fault α)
  | [] => (c, none)
  | g :: gs => match c.extendBy w g with
    | .ok d => d.extend w gs
    | .error f => (c, some f)

/-- A circuit that is plugged into itself goes on with the gates it has gained. Each round moves a
gate one step along the wiring, so a failure shows within as many rounds as there are pairs, or
never. -/
def extendItself (w : Option (Wiring α)) : Nat → List (Gate α) → Circuit α →
    Circuit α × Option (Fault α)
  | 0, _, c => (c, none)
  | rounds + 1, gs, c =>
    match c.extend w gs with
    | (d, some f) => (d, some f)
    | (d, none) => extendItself w rounds (d.gates.drop c.gates.length) d

end Circuit

end StateSynthesis
