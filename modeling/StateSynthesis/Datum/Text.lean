import StateSynthesis.Datum
import StateSynthesis.Gate.Text
import StateSynthesis.Text.Quoted

/-!
Texts of data. A text stands for itself, but is quoted inside a list; a qubit shows its identifier,
and inside a list that it is a qubit.
-/
namespace StateSynthesis.Datum

def typeName : Datum Float → String
  | absent => "<class 'NoneType'>"
  | flag _ => "<class 'bool'>"
  | integer _ => "<class 'int'>"
  | number _ => "<class 'float'>"
  | text _ => "<class 'str'>"
  | list _ => "<class 'list'>"
  | table _ => "<class 'dict'>"
  | qubit _ => "<class 'qsynth.circuit.qubit.Qubit'>"
  | gate _ => "<class 'qsynth.circuit.operation.GateOp'>"
  | circuit _ => "<class 'qsynth.circuit.quantum_circuit.QuantumCircuit'>"
  | gates .. => "<class 'qsynth.circuit.quantum_circuit.GateList'>"

mutual

/-- The text of a member of a list. -/
def shown : Datum Float → String
  | absent => "None"
  | flag true => "True"
  | flag false => "False"
  | integer n => toString n
  | number x => Decimal.shortest x
  | text s => Text.quoted s
  | list items => "[" ++ ", ".intercalate (shownItems items) ++ "]"
  | table entries => "\x7b" ++ ", ".intercalate (shownEntries entries) ++ "\x7d"
  | qubit q => q.shown
  | gate g => g.text
  | circuit n => "circuit_" ++ toString n
  | gates _ gs => "[" ++ ", ".intercalate (gs.map Gate.text) ++ "]"

def shownItems : List (Datum Float) → List String
  | [] => []
  | d :: ds => shown d :: shownItems ds

def shownEntries : List (String × Datum Float) → List String
  | [] => []
  | (k, d) :: es => (Text.quoted k ++ ": " ++ shown d) :: shownEntries es

end

def plain : Datum Float → String
  | text s => s
  | qubit q => q.identifier
  | d => d.shown

end StateSynthesis.Datum
