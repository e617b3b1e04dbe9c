import StateSynthesis.Gate.Basic
import StateSynthesis.Decimal.Places

/-!
The text of a gate: its name, the angle to eight places where the kind has one, and its qubits,
controls first.
-/
namespace StateSynthesis

/-- Angles are shown with at most this many places. -/
def Gate.anglePlaces : Nat := 8

def Qubit.listing (qs : List Qubit) : String := ", ".intercalate (qs.map Qubit.shown)

def Gate.text (g : Gate Float) : String :=
  g.kind.name
    ++ (if g.kind.isParametrized then
        "(" ++ Decimal.shortest (Decimal.toPlaces Gate.anglePlaces g.angle) ++ ")"
      else "")
    ++ "(" ++ Qubit.listing g.qubits ++ ")"

end StateSynthesis
