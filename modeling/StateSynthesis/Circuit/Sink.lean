import StateSynthesis.Circuit.Basic

/-!
Receivers of gates. A circuit accepts gates on its own qubits, a list accepts every gate. Gates are
handed over one by one, so a refusal leaves those before it.
-/
namespace StateSynthesis

inductive Sink (α : Type) where
  | circuit (c : Circuit α)
  | list (gs : List (Gate α))

namespace Sink

variable {α : Type}

def gates : Sink α → List (Gate α)
  | circuit c => c.gates
  | list gs => gs

def circuit? : Sink α → Option (Circuit α)
  | circuit c => some c
  | list _ => none

def append (s : Sink α) (g : Gate α) : Except (Fault α) (Sink α) :=
  match s with
  | circuit c => (c.append g).map circuit
  | list gs => .ok (list (gs ++ [g]))

def appendDatum (s : Sink α) (d : Datum α) : Except (Fault α) (Sink α) :=
  match d.gate? with
  | some g => s.append g
  | none => .error (.notAGate d)

/-- The receiver afterwards, and the refusal that ended the handover, if any. -/
def accept (s : Sink α) : List (Gate α) → Sink α × Option (Fault α)
  | [] => (s, none)
  | g :: gs => match s.append g with
    | .ok t => t.accept gs
    | .error f => (s, some f)

theorem accept_append (s : Sink α) (gs hs : List (Gate α)) :
    s.accept (gs ++ hs) = match s.accept gs with
      | (t, none) => t.accept hs
      | refused => refused := by
  induction gs generalizing s with
  | nil => rfl
  | cons g gs ih =>
    simp only [List.cons_append, accept]
    cases s.append g with
    | ok t => exact ih t
    | error f => rfl

end Sink

end StateSynthesis
