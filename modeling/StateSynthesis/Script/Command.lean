import StateSynthesis.Preparation
import StateSynthesis.Diagonal
import StateSynthesis.Environment

/-!
Scripts: commands on named objects, and environments around parts of a script. Operands refer to
what earlier steps named, to the qubits of a circuit, or are literals.
-/
namespace StateSynthesis

namespace Script

variable {α : Type}

inductive Ref (α : Type) where
  | name (n : String)
  /-- The qubit of a circuit, or of a gate, at an index. -/
  | slot (circuit : String) (index : Int)
  | value (l : Literal α)

/-- A single operand, or a list of operands. -/
inductive Refs (α : Type) where
  | one (r : Ref α)
  | many (rs : List (Ref α))

inductive GateRef (α : Type) where
  | name (n : String)
  | value (l : Literal α)
  | build (kind : Literal α) (target : Ref α) (controls : Refs α) (angle : Literal α)
  /-- A gate of a kind from its arguments in order. -/
  | construct (kind : Kind) (arguments : List (Refs α))
  | controlledNot (control target : Ref α)

/-- A gate, or a list of gates. -/
inductive GateRefs (α : Type) where
  | one (g : GateRef α)
  | many (gs : List (GateRef α))

inductive DerivationRef (α : Type) where
  | copy
  | clear
  | inverse
  | control (controls : Refs α)

inductive EnvironmentRef (α : Type) where
  | conjugation (gates : GateRefs α)
  | inversion
  | control (controls : Refs α)
  | bare

/-- What a step does, beside naming its result. Commands that write gates write them to the receiver
of the step. -/
inductive Command (α : Type) where
  | createQubit (identifier : Literal α)
  | createCircuit (size : Literal α) (name : Option String)
  | createList
  | addQubit (operand : Ref α)
  | sameQubits (a b : Ref α)
  | countDistinct (qubits : Refs α)
  | sumQubits (a b : Refs α)
  | showGate (gate : GateRef α)
  | invertGate (gate : GateRef α)
  | controlGate (gate : GateRef α) (controls : Refs α)
  | gateMatrix (gate : GateRef α)
  | sameGates (a b : GateRef α)
  | invertGates (gates : List (GateRef α))
  | controlGates (gates : List (GateRef α)) (controls : Refs α)
  | baseGate (gate : GateRef α)
  | append (gate : GateRef α)
  | instruct (instruction : String) (operands : List (Ref α))
  | extend (other : Option String) (wiring : Option (List (Ref α × Ref α)))
  | derive (source : Option String) (how : DerivationRef α)
  | describe (source : Option String)
  | census (source : Option String)
  | statevector (source : Option String)
  | unitary (source : Option String)
  | compare (a b : Option String) (ignorePhase : Bool)
  | exported (source : Option String)
  /-- Fails from the outset. -/
  | fail (f : Fault α)
  | multiplex (tolerance : α) (angles : List α) (axis : Literal α) (controls : Refs α)
      (target : Ref α) (outer : Refs α) (adjoint : Bool)
  | diagonal (tolerance : α) (angles : List α) (register controls : Refs α) (adjoint : Bool)
  | unprepare (tolerance : α) (coefficients : List (Entry α)) (controls : Refs α) (target : Ref α)
  | prepare (tolerance : α) (coefficients : List (Entry α)) (register controls : Refs α)
      (adjoint : Bool)
  | prepareExact (coefficients : List (Entry α)) (register controls : Refs α) (adjoint : Bool)
  | prepareReals (tolerance : α) (values : List α) (register controls : Refs α) (adjoint : Bool)
  | prepareExactReals (values : List α) (register controls : Refs α) (adjoint : Bool)
  | prepareState (vector : List (Cartesian α)) (register : Refs α) (tolerance : Option α)

end Script

/-- A step may name a receiver, and a handle for what comes out of it. -/
inductive Script (α : Type) where
  | step (receiver handle : Option String) (command : Script.Command α)
  | scope (receiver handle : Option String) (environment : Script.EnvironmentRef α)
      (body : List (Script α))

instance {α : Type} : Inhabited (Script α) := ⟨.step none none .createList⟩

end StateSynthesis
