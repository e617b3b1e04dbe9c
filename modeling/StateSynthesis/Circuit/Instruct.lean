import StateSynthesis.Circuit.Basic

/-!
Gates by name and position. A rotation by the angle zero is left out, before its position is looked
at; a global phase is always appended.
-/
namespace StateSynthesis.Circuit

variable {α : Type} [Scalar α]

/-- A qubit, or the index of one in the circuit. -/
def position (c : Circuit α) : Datum α → Except (Fault α) Qubit
  | .qubit q => .ok q
  | d => match d.integer? with
    | some i => match c.qubitAt? i with
      | some q => .ok q
      | none => .error .noSuchPosition
    | none => .error (.notAPosition d)

/-- Whether an angle is the number zero, which a text is not. -/
def isZero (d : Datum α) : Bool :=
  match d.number? with
  | some x => x == Scalar.zero
  | none => false

def rotate (c : Circuit α) (k : Kind) (angle operand : Datum α) :
    Except (Fault α) (Circuit α) := do
  if isZero angle then return c
  let q ← c.position operand
  c.append (← Gate.make k (some q) [] (← angle.toNumber))

def place (c : Circuit α) (k : Kind) (operand : Datum α) : Except (Fault α) (Circuit α) := do
  let q ← c.position operand
  c.append (← Gate.make k (some q) [] Scalar.zero)

def placeControlled (c : Circuit α) (control target : Datum α) : Except (Fault α) (Circuit α) := do
  let p ← c.position control
  let q ← c.position target
  c.append (← Gate.make .x (some q) [p] Scalar.zero)

/-- The names are those of the kinds, and `cx`. -/
def instruct (c : Circuit α) (name : String) (operands : List (Datum α)) :
    Except (Fault α) (Circuit α) :=
  if name == "cx" then
    match operands with
    | [control, target] => c.placeControlled control target
    | _ => .error .wrongType
  else match Kind.ofName? name with
    | none => .error .noSuchOperation
    | some .gphase =>
      match operands with
      | [angle] => do c.append (← Gate.make .gphase none [] (← angle.toNumber))
      | _ => .error .wrongType
    | some k =>
      match k.isParametrized, operands with
      | true, [angle, operand] => c.rotate k angle operand
      | false, [operand] => c.place k operand
      | _, _ => .error .wrongType

end StateSynthesis.Circuit
