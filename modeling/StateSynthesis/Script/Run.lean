import StateSynthesis.Script.Command
import StateSynthesis.Script.Reply
import StateSynthesis.Session.Circuits
import StateSynthesis.Session.Synthesis
import StateSynthesis.Statevector.Comparison
import StateSynthesis.Statevector.Simulation

/-!
Running scripts. At the top a failing step is reported and the next one is run. In the body of an
environment the first failing step is the last: its fault leaves this environment and all around
it, and nothing is handed over.
-/
namespace StateSynthesis

variable {α : Type}

namespace Script

/-- The value of an operand; a name that stands for nothing is absent. -/
def Ref.resolve : Ref α → Action α (Datum α)
  | .value l => return l.datum
  | .name n => do
    match ← Action.named n with
    | some o => Action.datum o
    | none => return .absent
  | .slot c i => do
    match Qubit.at? (← Action.qubitsOf (← Action.named c)) i with
    | some q => return .qubit q
    | none => throw .noSuchPosition

def Refs.resolve : Refs α → Action α (Datum α)
  | .one r => r.resolve
  | .many rs => Datum.list <$> rs.mapM Ref.resolve

variable [Scalar α]

def GateRef.resolve : GateRef α → Action α (Datum α)
  | .value l => return l.datum
  | .name n => (Ref.name n).resolve
  | .build kind target controls angle => do
    let target ← target.resolve
    let controls ← controls.resolve
    let angle ← (angle.datum.toNumber : Except (Fault α) _)
    let g ← (Gate.ofData kind.datum target controls angle : Except (Fault α) _)
    return .gate g
  | .construct kind arguments => do
    let ds ← arguments.mapM Refs.resolve
    let g ← (Gate.ofArguments kind ds : Except (Fault α) _)
    return .gate g
  | .controlledNot control target => do
    let p ← control.resolve
    let q ← target.resolve
    let g ← (Gate.ofArguments .x [q, .list [p]] : Except (Fault α) _)
    return .gate g

/-- A gate whose own operation is asked for. -/
def GateRef.resolveGate (r : GateRef α) : Action α (Gate α) := do
  (Gate.ofDatum (← r.resolve) : Except (Fault α) _)

def GateRefs.resolve : GateRefs α → Action α (List (Datum α))
  | .many gs => gs.mapM GateRef.resolve
  | .one g => do
    match ← g.resolve with
    | .gate g => return [.gate g]
    | d => (d.items : Except (Fault α) _)

/-- The operation of receiver `n` is asked for before its arguments, and a list can not be
controlled. -/
def DerivationRef.resolve (n : Nat) : DerivationRef α → Action α (Derivation α)
  | .copy => return .copy
  | .clear => return .clear
  | .inverse => return .inverse
  | .control controls => do
    let _ ← Action.circuit n
    return .control (← controls.resolve)

/-- A single value counts as a list of controls. -/
def controlItems (d : Datum α) : List (Datum α) := d.members?.getD [d]

def EnvironmentRef.resolve : EnvironmentRef α → Action α (Environment α)
  | .conjugation gates => do return .conjugation (← gates.resolve)
  | .inversion => return .inversion
  | .control controls => do return .control (controlItems (← controls.resolve))
  | .bare => return .bare

/-- Only values that stay what they are can be told apart in a set. -/
def distinctCount (d : Datum α) : Except (Fault α) Nat := do
  let ds ← d.items
  if ds.any Datum.isContainer then throw .wrongType
  return (ds.foldl (fun seen d => if seen.any (·.alike d) then seen else seen ++ [d]) []).length

/-- A qubit joins a list at either end, and nothing else. Two lists join, and so do two texts. -/
def sum (d e : Datum α) : Except (Fault α) (List (Datum α)) :=
  match d, e, d.members?, e.members? with
  | .qubit q, _, _, some es => .ok (.qubit q :: es)
  | .qubit _, e, _, none => .error (.qubitSum e)
  | _, .qubit q, some ds, _ => .ok (ds ++ [.qubit q])
  | d, .qubit _, none, _ => .error (.qubitSum d)
  | _, _, some ds, some es => .ok (ds ++ es)
  | .text s, .text t, _, _ => (Datum.text (s ++ t)).items
  | _, _, _, _ => .error .wrongType

/-- A wiring is put together pair by pair. Its first parts have to be values that can be looked
up. -/
def resolveWiring (pairs : List (Ref α × Ref α)) : Action α (Wiring α) :=
  pairs.mapM fun p => do
    let d ← p.1.resolve
    let e ← p.2.resolve
    if d.isContainer then throw .wrongType
    return (d, e)

/-- The controls are looked at only if there are any, the gates one after the other. -/
def controlAll (gs : List (Datum α)) (controls : Datum α) : Except (Fault α) (List (Gate α)) := do
  let cs ← controls.items
  if cs.isEmpty then gs.mapM Gate.ofDatum
  else gs.mapM fun d => do (← Gate.ofDatum d).controlBy cs

def invertAll (gs : List (Datum α)) : Except (Fault α) (List (Gate α)) := do
  return Sequence.inverse (← gs.mapM Gate.ofDatum)

def circuitNamed (name : Option String) : Action α (Circuit α) := do
  Action.circuit (← Action.needReceiver (← Action.named name))

def replyMade (n : Nat) (warned : Bool) : Action α (Reply α) := do
  return .made n (← Action.receiver n) warned

/-- A new circuit is shown; of a receiver that was given, only its qubits. -/
def replyPrepared (given : Option (Object α)) (result : Option Nat × Bool) :
    Action α (Reply α) := do
  match result.1 with
  | some n => replyMade n result.2
  | none =>
    let c ← Action.frame (given.bind Object.receiver?)
    return .prepared (c.map Circuit.qubits) result.2

/-- The register of a preparation is looked up before its controls. -/
def prepareOperands (receiver : Option (Object α)) (register controls : Refs α)
    (preparation : Datum α → Datum α → Preparation α) : Action α (Reply α) := do
  let register ← register.resolve
  let controls ← controls.resolve
  replyPrepared receiver (← Action.prepare (preparation register controls) receiver)

/-- The answer to a command of a step with the given receiver. -/
def Command.perform (receiver : Option (Object α)) : Command α → Action α (Reply α)
  | .createQubit identifier =>
    match identifier with
    | .text label => Reply.qubit <$> Action.createQubit label
    | l => throw (.identifierType l.datum)
  | .createCircuit size name => do
    replyMade (← Action.createCircuit size.datum name) false
  | .createList => Reply.list <$> Action.createReceiver (.list [])
  | .addQubit operand => do
    let n ← Action.needReceiver receiver
    let _ ← Action.circuit n
    return .added (← Action.addQubit n (← operand.resolve))
  | .sameQubits a b => do return .same ((← a.resolve).same (← b.resolve))
  | .countDistinct qubits => do
    return .distinct (← (distinctCount (← qubits.resolve) : Except (Fault α) _))
  | .sumQubits a b => do
    let d ← a.resolve
    let e ← b.resolve
    return .sum (← (sum d e : Except (Fault α) _))
  | .showGate gate => Reply.gate <$> gate.resolveGate
  | .invertGate gate => do return .gate (← gate.resolveGate).inverse
  | .controlGate gate controls => do
    let g ← gate.resolveGate
    match (← controls.resolve).qubitItems? with
    | some cs => return .gate (← (g.controlBy cs : Except (Fault α) _))
    | none => throw .wrongType
  | .gateMatrix gate => do
    let g ← gate.resolveGate
    return .matrix (g.kind.matrixRows g.angle)
  | .sameGates a b => do return .same ((← a.resolve).same (← b.resolve))
  | .invertGates gates => do
    return .gates (← (invertAll (← gates.mapM GateRef.resolve) : Except (Fault α) _))
  | .controlGates gates controls => do
    let gs ← gates.mapM GateRef.resolve
    let cs ← controls.resolve
    return .gates (← (controlAll gs cs : Except (Fault α) _))
  | .baseGate gate => do
    let (base, parameters) ← ((← gate.resolveGate).base : Except (Fault α) _)
    return .base base parameters
  | .append gate => do
    let n ← Action.needReceiver receiver
    let d ← gate.resolve
    Action.putReceiver n (← ((← Action.receiver n).appendDatum d : Except (Fault α) _))
    return .done
  | .instruct instruction operands => do
    let ds ← operands.mapM Ref.resolve
    let n ← Action.needReceiver receiver
    let c ← Action.circuit n
    Action.putReceiver n (.circuit (← (c.instruct instruction ds : Except (Fault α) _)))
    return .done
  | .extend other pairs => do
    let n ← Action.needReceiver receiver
    let o ← Action.named other
    let w ← pairs.mapM resolveWiring
    Action.extend n (o.bind Object.receiver?) w
    return .done
  | .derive source how => do
    let n ← Action.needReceiver (← Action.named source)
    replyMade (← Action.derive n (← how.resolve n)) false
  | .describe source => do
    return .receiver (← Action.receiver (← Action.needReceiver (← Action.named source)))
  | .census source => do
    let c ← circuitNamed source
    return .census c.census c.cnotCount
  | .statevector source => do
    return .state (← ((← circuitNamed source).statevector : Except (Fault α) _))
  | .unitary source => do
    return .unitary (← ((← circuitNamed source).unitary : Except (Fault α) _))
  | .compare a b ignorePhase => do
    let v ← ((← circuitNamed a).statevector : Except (Fault α) _)
    let w ← ((← circuitNamed b).statevector : Except (Fault α) _)
    return .agreement
      (← (Statevector.compare ignorePhase (← get).threshold v w : Except (Fault α) _))
  | .exported source => do
    return .exported (← ((← circuitNamed source).exported : Except (Fault α) _))
  | .fail f => throw f
  | .multiplex tolerance angles axis controls target outer adjoint => do
    let controls ← controls.resolve
    let target ← target.resolve
    let outer ← outer.resolve
    Action.synthesize
      (MultiplexedRotation.gates ⟨tolerance, angles, axis.datum, controls, target, outer, adjoint⟩)
      (receiver.bind Object.receiver?)
    return .done
  | .diagonal tolerance angles register controls adjoint => do
    let register ← register.resolve
    let controls ← controls.resolve
    Action.synthesize (DiagonalUnitary.gates ⟨tolerance, angles, register, controls, adjoint⟩)
      (receiver.bind Object.receiver?)
    return .done
  | .unprepare tolerance coefficients controls target => do
    let controls ← controls.resolve
    let target ← target.resolve
    Action.synthesize (Unpreparation.gates ⟨tolerance, coefficients, controls, target⟩)
      (receiver.bind Object.receiver?)
    return .done
  | .prepare tolerance coefficients register controls adjoint =>
    prepareOperands receiver register controls (⟨tolerance, coefficients, ·, ·, adjoint⟩)
  | .prepareExact coefficients register controls adjoint =>
    prepareOperands receiver register controls (.exact coefficients · · adjoint)
  | .prepareReals tolerance values register controls adjoint =>
    prepareOperands receiver register controls (.ofReals tolerance values · · adjoint)
  | .prepareExactReals values register controls adjoint =>
    prepareOperands receiver register controls (.exactOfReals values · · adjoint)
  | .prepareState vector register tolerance => do
    replyPrepared receiver
      (← Action.prepareState vector (← register.resolve) receiver tolerance)

/-- The answer to a command, after which the handle stands for what came out of it. -/
def Command.answer (receiver : Option (Object α)) (handle : Option String) (c : Command α) :
    Action α (Reply α) := do
  let r ← c.perform receiver
  if let some o := r.object? then Action.give handle o
  return r

/-- What a receiver gained, counted from the gates it had before. -/
def emission (before after : Option (List (Gate α))) : Option (Emission α) :=
  after.map fun gs => ⟨gs.length, gs.drop (before.elim 0 List.length)⟩

/-- Runs a part of a script and reports it together with what the receiver gained meanwhile. -/
def watch (receiver : Option (Object α))
    (part : StateM (Session α) (Option (Emission α) → Report α)) :
    StateM (Session α) (Report α) := do
  let before := receiver.bind (← get).gatesIn
  let report ← part
  return report (emission before (receiver.bind (← get).gatesIn))

/-- A description shows all gates of a receiver, and what is new among them is not shown again. -/
def Report.ofOutcome (outcome : Except (Fault α) (Reply α)) (e : Option (Emission α)) :
    Report α :=
  match outcome with
  | .ok r => .step outcome (if r.isDescription then none else e)
  | .error _ => .step outcome e

/-- Enters an environment, and answers with its buffer. -/
def enter (e : EnvironmentRef α) (handle : Option String) :
    Action α (Environment α × Nat) := do
  let e ← e.resolve
  let buffer ← Action.createReceiver (.list [])
  Action.give handle (.receiver buffer)
  return (e, buffer)

/-- The receiver of a step, before the step may give its name to another object. -/
def receiverNamed (name : Option String) : StateM (Session α) (Option (Object α)) := do
  return name.bind (← get).named

end Script

mutual

def Script.run [Scalar α] : Script α → StateM (Session α) (Script.Report α)
  | .step receiver handle c => do
    let o ← Script.receiverNamed receiver
    Script.watch o (Script.Report.ofOutcome <$> (c.answer o handle).run)
  | .scope receiver handle e body => do
    let o ← Script.receiverNamed receiver
    Script.watch o do
      match ← (Script.enter e handle).run with
      | .error f => return .step (.error f)
      | .ok (e, buffer) =>
        let (reports, failure) ← Script.runBody body
        match failure with
        | some f => return .scope reports (some f)
        | none =>
          match ← (Action.leave e buffer (o.bind Object.receiver?)).run with
          | .ok () => return .scope reports none
          | .error f => return .scope reports (some f)

/-- The reports up to the first failing step, and its fault. -/
def Script.runBody [Scalar α] :
    List (Script α) → StateM (Session α) (List (Script.Report α) × Option (Fault α))
  | [] => return ([], none)
  | s :: ss => do
    let r ← s.run
    match r.failure? with
    | some f => return ([r], some f)
    | none =>
      let (rs, f) ← Script.runBody ss
      return (r :: rs, f)

end

/-- The reports of a whole script. -/
def Script.runAll [Scalar α] (scripts : List (Script α)) :
    StateM (Session α) (List (Script.Report α)) :=
  scripts.mapM Script.run

end StateSynthesis
