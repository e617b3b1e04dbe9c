import StateSynthesis.Fault
import StateSynthesis.Datum.Text

/-!
The wording of faults, over binary floating point.
-/
namespace StateSynthesis.Fault

open Datum

/-- Lengths of one dimension, and of `n` qubits. -/
def shape (n : Nat) : String := "(" ++ toString n ++ ",)"

def registerShape (n : Nat) : String :=
  "(" ++ ",".intercalate (List.replicate n "2") ++ (if n == 1 then "," else "") ++ ")"

def message : Fault Float → String
  | negativeTolerance t => "Tolerance must be non-negative, got " ++ Decimal.shortest t
  | indexOutOfRange i c => "Qubit index " ++ i.plain ++ " is out of range for circuit " ++ c
  | notAQubit d => "Could not interpret " ++ d.plain ++ " of type " ++ d.typeName ++ " as Qubit"
  | foreignQubit q c => "Qubit " ++ q.identifier ++ " is not part of circuit " ++ c
  | overlappingQubits qs => "Qubits [" ++ Qubit.listing qs ++ "] are not distinct"
  | tooManyAngles n k limit =>
    "Tried to multiplex " ++ toString n ++ " angles over " ++ k.plain
      ++ " control qubits (at most " ++ limit.plain ++ " are possible)"
  | controlledIdentity => "Multiplexed rotations about I can not be controlled"
  | emptyDiagonal => "Tried to apply diagonal unitary on empty register"
  | emptyRegister => "Tried to prepare a state on an empty register"
  | emptyVector => "Tried to prepare a state from an empty vector"
  | paddingLength n => "Padding length must be a power of two, got " ++ n.plain
  | tooManyCoefficients m n =>
    "Tried to pad " ++ toString m ++ " coefficients to length " ++ n.plain
  | notAPair e => "Could not interpret " ++ e.plain ++ " as (magnitude, phase) pair"
  | identifierType d =>
    "Tried to create Qubit with identifier of type " ++ d.typeName ++ " (required is str)"
  | qubitSum d => "Tried to add Qubit to type " ++ d.typeName ++ " (only list is possible)"
  | missingTarget k => "Tried to create " ++ k.name ++ " gate without target qubit"
  | targetType d => "Tried to create gate with target of type " ++ d.typeName
  | controlType d => "Tried to create gate with control of type " ++ d.typeName
  | selfControlled q => "Qubit " ++ q.identifier ++ " can not be control and target of a gate"
  | repeatedControl => "Tried to create gate with duplicate control qubits"
  | notAGate d => "Tried to append object type " ++ d.typeName ++ " which is no GateOp"
  | strangerInGate g q c =>
    "Instruction " ++ g.text ++ " contains qubit " ++ q.identifier
      ++ " which is not part of circuit " ++ c
  | circuitSize d => "Tried to initialize QuantumCircuit with type " ++ d.typeName
  | addedType d => "Tried to add type " ++ d.typeName ++ " as a qubit"
  | identifierTaken i => "Qubit name " ++ i ++ " already exists"
  | notAPosition d => "Couldn't convert type " ++ d.typeName ++ " to qubit"
  | noCounterpart k => "Don't know how to convert operation " ++ k.name ++ " to qiskit"
  | notAKind d => d.shown ++ " is not a valid GateKind"
  | notAnAxis d => d.shown ++ " is not a valid Axis"
  | notANumber s => "could not convert string to float: " ++ Text.quoted s
  | unequalLengths m n =>
    "operands could not be broadcast together with shapes " ++ shape m ++ " " ++ shape n ++ " "
  | emptyMaximum => "attempt to get argmax of an empty sequence"
  | targetedPhase => "shape-mismatch for sum"
  | stateSize size n =>
    "cannot reshape array of size " ++ toString size ++ " into shape " ++ registerShape n
  | unwired q => q.shown
  | noSuchPosition => "list index out of range"
  | squareOverflow => "(34, 'Numerical result out of range')"
  | integerTooLarge => "int too large to convert to float"
  | raised m => m
  | bareEnvironment | wrongType | noSuchOperation => ""

end StateSynthesis.Fault
