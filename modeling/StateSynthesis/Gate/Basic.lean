import StateSynthesis.Scalar
import StateSynthesis.Qubit
import StateSynthesis.Gate.Kind

/-!
Gates: a kind, an optional target, ordered controls and an angle. Only a global phase may lack a
target. The inverse and the prepending of controls are stated on gates and on sequences; a sequence
is inverted from its end.
-/
namespace StateSynthesis

structure Gate (α : Type) where
  kind : Kind
  target : Option Qubit
  controls : List Qubit
  angle : α

namespace Gate

variable {α : Type}

/-- The qubits that the gate touches, controls first. -/
def qubits (g : Gate α) : List Qubit := g.controls ++ g.target.toList

def withControls (cs : List Qubit) (g : Gate α) : Gate α :=
  { g with controls := cs ++ g.controls }

@[simp] theorem withControls_nil (g : Gate α) : g.withControls [] = g := rfl

@[simp] theorem withControls_withControls (cs ds : List Qubit) (g : Gate α) :
    (g.withControls cs).withControls ds = g.withControls (ds ++ cs) := by
  simp [withControls, List.append_assoc]

variable [Scalar α]

/-- The angle of a gate of kind `k`: kinds without a parameter have the angle zero. -/
def angleFor (k : Kind) (a : α) : α := if k.isParametrized then a else Scalar.zero

def inverse (g : Gate α) : Gate α :=
  { g with kind := g.kind.inverse, angle := angleFor g.kind (-g.angle) }

theorem inverse_withControls (cs : List Qubit) (g : Gate α) :
    (g.withControls cs).inverse = g.inverse.withControls cs := rfl

/-- Equal operands and an equal angle; an angle that is not a number equals nothing. -/
def same (g g' : Gate α) : Bool :=
  g.kind == g'.kind && g.target == g'.target && g.controls == g'.controls && g.angle == g'.angle

/-- The touching conditions that every gate keeps. -/
structure WellFormed (g : Gate α) : Prop where
  target_or_phase : g.target.isSome ∨ g.kind = .gphase
  target_free : ∀ q ∈ g.target, q ∉ g.controls
  controls_nodup : g.controls.Nodup
  angle_eq : g.kind.isParametrized = false → g.angle = Scalar.zero

def rz (a : α) (q : Qubit) : Gate α := ⟨.rz, some q, [], a⟩
def gphase (a : α) (cs : List Qubit) : Gate α := ⟨.gphase, none, cs, a⟩
def x (q : Qubit) (cs : List Qubit) : Gate α := ⟨.x, some q, cs, Scalar.zero⟩
def basis (k : Kind) (q : Qubit) : Gate α := ⟨k, some q, [], Scalar.zero⟩

end Gate

namespace Sequence

variable {α : Type}

/-- Every gate with `cs` in front of its controls. -/
def controlled (cs : List Qubit) (gs : List (Gate α)) : List (Gate α) :=
  gs.map (Gate.withControls cs)

@[simp] theorem controlled_nil (gs : List (Gate α)) : controlled [] gs = gs := by
  induction gs with
  | nil => rfl
  | cons g gs ih => simpa [controlled] using ih

variable [Scalar α]

def inverse (gs : List (Gate α)) : List (Gate α) := gs.reverse.map Gate.inverse

theorem inverse_append (gs hs : List (Gate α)) :
    inverse (gs ++ hs) = inverse hs ++ inverse gs := by
  simp [inverse]

theorem inverse_controlled (cs : List Qubit) (gs : List (Gate α)) :
    inverse (controlled cs gs) = controlled cs (inverse gs) := by
  simp [inverse, controlled, Function.comp_def, Gate.inverse_withControls]

/-- `vs`, then `gs`, then the inverse of `vs`. Around nothing there is nothing to undo. -/
def conjugated (vs gs : List (Gate α)) : List (Gate α) :=
  if gs.isEmpty then [] else vs ++ gs ++ inverse vs

end Sequence

end StateSynthesis
