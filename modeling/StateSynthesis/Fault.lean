import StateSynthesis.Datum

/-!
The reasons for which an operation refuses. A fault records its cause and the data of the cause;
its category says which rule of the library or of its arithmetic was broken, and only the category
and the wording are shown to a caller.
-/
namespace StateSynthesis

inductive Fault (α : Type) where
  -- arguments of the synthesis
  | negativeTolerance (tolerance : α)
  | indexOutOfRange (index : Datum α) (circuit : String)
  | notAQubit (given : Datum α)
  | foreignQubit (q : Qubit) (circuit : String)
  | overlappingQubits (qs : List Qubit)
  | tooManyAngles (count : Nat) (controls limit : Datum α)
  | controlledIdentity
  | emptyDiagonal
  | emptyRegister
  | emptyVector
  | paddingLength (length : Datum α)
  | tooManyCoefficients (count : Nat) (length : Datum α)
  | notAPair (entry : Datum α)
  -- rules of qubits, gates and circuits
  | identifierType (given : Datum α)
  | qubitSum (given : Datum α)
  | missingTarget (kind : Kind)
  | targetType (given : Datum α)
  | controlType (given : Datum α)
  | selfControlled (q : Qubit)
  | repeatedControl
  | notAGate (given : Datum α)
  | strangerInGate (g : Gate α) (q : Qubit) (circuit : String)
  | circuitSize (given : Datum α)
  | addedType (given : Datum α)
  | identifierTaken (identifier : String)
  | notAPosition (given : Datum α)
  | noCounterpart (kind : Kind)
  -- values outside the domain of an operation
  | notAKind (given : Datum α)
  | notAnAxis (given : Datum α)
  | notANumber (text : String)
  | unequalLengths (m n : Nat)
  | emptyMaximum
  | targetedPhase
  | stateSize (size qubits : Nat)
  | unwired (q : Qubit)
  | noSuchPosition
  | squareOverflow
  | integerTooLarge
  | raised (message : String)
  | bareEnvironment
  | wrongType
  | noSuchOperation

namespace Fault

inductive Category where
  | invalidArgument | rule | value | key | position | overflow | raised | abstractUse | type
  | operation
  deriving DecidableEq

variable {α : Type}

def category : Fault α → Category
  | negativeTolerance _ | indexOutOfRange .. | notAQubit _ | foreignQubit .. | overlappingQubits _
  | tooManyAngles .. | controlledIdentity | emptyDiagonal | emptyRegister | emptyVector
  | paddingLength _ | tooManyCoefficients .. | notAPair _ => .invalidArgument
  | identifierType _ | qubitSum _ | missingTarget _ | targetType _ | controlType _
  | selfControlled _ | repeatedControl | notAGate _ | strangerInGate .. | circuitSize _
  | addedType _ | identifierTaken _ | notAPosition _ | noCounterpart _ => .rule
  | notAKind _ | notAnAxis _ | notANumber _ | unequalLengths .. | emptyMaximum | targetedPhase
  | stateSize .. => .value
  | unwired _ => .key
  | noSuchPosition => .position
  | squareOverflow | integerTooLarge => .overflow
  | raised _ => .raised
  | bareEnvironment => .abstractUse
  | wrongType => .type
  | noSuchOperation => .operation

end Fault

namespace Datum

variable {α : Type}

/-- Goes through a value as a loop would. -/
def items (d : Datum α) : Except (Fault α) (List (Datum α)) :=
  match d.items? with
  | some ds => .ok ds
  | none => .error .wrongType

/-- Reads a value as a number, which a text may denote. -/
def toNumber [Scalar α] : Datum α → Except (Fault α) α
  | .text s => match Scalar.read? s with
    | some x => .ok x
    | none => .error (.notANumber s)
  | .integer n =>
    if Scalar.isFinite (Scalar.ofInt n : α) then .ok (Scalar.ofInt n) else .error .integerTooLarge
  | d => match d.number? with
    | some x => .ok x
    | none => .error .wrongType

end Datum

end StateSynthesis
