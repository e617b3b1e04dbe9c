import StateSynthesis.Circuit.Derive
import StateSynthesis.Circuit.Extend
import StateSynthesis.Circuit.Instruct
import StateSynthesis.Environment
import StateSynthesis.Session.Basic

/-!
Operations on the circuits and lists of a session: deriving circuits, plugging one into another, and
environments around a part of the session.
-/
namespace StateSynthesis

inductive Derivation (α : Type) where
  | copy
  | clear
  | inverse
  | control (controls : Datum α)

namespace Action

variable {α : Type} [Scalar α]

/-- Controls that are not yet in the circuit join it, in order; an absent one is made up. -/
def joinControls (n : Nat) : List (Datum α) → Action α Unit
  | [] => return ()
  | d :: ds => do
    let c ← circuit n
    let joined := match d with
      | .qubit q => c.qubits.contains q
      | _ => false
    if !joined then
      let _ ← addQubit n d
    joinControls n ds

def deriveControlled (c : Circuit α) (controls : Datum α) : Action α Nat := do
  let ds ← match controls.qubitItems? with
    | some ds => pure ds
    | none => throw .wrongType
  let n ← createReceiver (.circuit c.clear)
  joinControls n ds
  let gs ← (Sequence.controlBy ds c.gates : Except (Fault α) _)
  putReceiver n (.circuit { ← circuit n with gates := gs })
  return n

/-- Only a copy can be made of a list. -/
def derive (n : Nat) (how : Derivation α) : Action α Nat := do
  match ← receiver n, how with
  | .list gs, .copy => createReceiver (.list gs)
  | .list _, _ => throw .noSuchOperation
  | .circuit c, .copy => createReceiver (.circuit c)
  | .circuit c, .clear => createReceiver (.circuit c.clear)
  | .circuit c, .inverse => createReceiver (.circuit c.inverse)
  | .circuit c, .control controls => deriveControlled c controls

/-- Extends a circuit by the gates of a circuit, or a list by those of a list. Lists take no
wiring. -/
def extend (n : Nat) (other : Option Nat) (w : Option (Wiring α)) : Action α Unit := do
  match ← receiver n, other with
  | .circuit c, some m =>
    let d ← circuit m
    let outcome :=
      if m = n then c.extendItself w (w.elim 0 List.length + 1) c.gates else c.extend w d.gates
    settle n (.circuit outcome.1, outcome.2)
  | .circuit _, none => throw .noSuchOperation
  | .list gs, some m =>
    match ← receiver m, w with
    | .list hs, none => putReceiver n (.list (gs ++ hs))
    | _, _ => throw .wrongType
  | .list _, none => throw .wrongType

/-- Leaves an environment: the gates that its buffer holds by now go to the receiver outside. -/
def leave (e : Environment α) (buffer : Nat) (outer : Option Nat) : Action α Unit := do
  let gs ← (e.transform (← receiver buffer).gates : Except (Fault α) _)
  deliver outer gs

end Action

end StateSynthesis
