import StateSynthesis.Circuit.Sink

/-!
Environments. The gates of a body are collected in a list; when the body is over the environment
transforms the whole list and hands it to the receiver outside. A body that fails hands over
nothing.
-/
namespace StateSynthesis

variable {α : Type}

inductive Environment (α : Type) where
  /-- The gates around the body; entries which are no gates are noticed with the first body. -/
  | conjugation (gates : List (Datum α))
  | inversion
  | control (controls : List (Datum α))
  /-- An environment that was given no transformation. -/
  | bare

namespace Environment

variable [Scalar α]

def transform : Environment α → List (Gate α) → Except (Fault α) (List (Gate α))
  | conjugation vs, gs =>
    if gs.isEmpty then .ok [] else (vs.mapM Gate.ofDatum).map (Sequence.conjugated · gs)
  | inversion, gs => .ok (Sequence.inverse gs)
  | control cs, gs => Sequence.controlBy cs gs
  | bare, _ => .error .bareEnvironment

/-- What leaving the environment does to the receiver, for the gates of a body that did not
fail. -/
def flush (e : Environment α) (body : List (Gate α)) (s : Sink α) : Sink α × Option (Fault α) :=
  match e.transform body with
  | .ok gs => s.accept gs
  | .error f => (s, some f)

end Environment

end StateSynthesis
