/-!
The closed set of elementary gates, and the axes of rotations with the basis changes that lead from
`y` over `x` to `z`.
-/
namespace StateSynthesis

inductive Kind where
  | rx | ry | rz | gphase | h | s | sdg | x
  deriving DecidableEq, Inhabited

namespace Kind

def all : List Kind := [rx, ry, rz, gphase, h, s, sdg, x]

def name : Kind → String
  | rx => "rx"
  | ry => "ry"
  | rz => "rz"
  | gphase => "gphase"
  | h => "h"
  | s => "s"
  | sdg => "s_dg"
  | x => "x"

def ofName? (n : String) : Option Kind := all.find? (·.name == n)

/-- The kinds that carry an angle. -/
def isParametrized : Kind → Bool
  | rx | ry | rz | gphase => true
  | _ => false

/-- The kind of the inverse. Kinds with an angle keep their kind and negate the angle. -/
def inverse : Kind → Kind
  | s => sdg
  | sdg => s
  | k => k

@[simp] theorem inverse_inverse (k : Kind) : k.inverse.inverse = k := by cases k <;> rfl

@[simp] theorem isParametrized_inverse (k : Kind) :
    k.inverse.isParametrized = k.isParametrized := by cases k <;> rfl

end Kind

/-- The axis of a rotation; a rotation about the identity is a global phase. -/
inductive Axis where
  | x | y | z | identity
  deriving DecidableEq, Inhabited

namespace Axis

def all : List Axis := [x, y, z, identity]

def name : Axis → String
  | x => "X"
  | y => "Y"
  | z => "Z"
  | identity => "I"

def ofName? (n : String) : Option Axis := all.find? (·.name == n)

def rotationKind : Axis → Kind
  | x => .rx
  | y => .ry
  | z => .rz
  | identity => .gphase

/-- The gate that turns this axis into the next one, and that axis. -/
def basisChange? : Axis → Option (Kind × Axis)
  | x => some (.h, z)
  | y => some (.sdg, x)
  | _ => none

/-- All basis changes on the way, outermost first. -/
def basisChanges : Axis → List Kind
  | x => [.h]
  | y => [.sdg, .h]
  | _ => []

theorem basisChanges_eq (a : Axis) :
    a.basisChanges = match a.basisChange? with
      | some (k, b) => k :: b.basisChanges
      | none => [] := by cases a <;> rfl

end Axis

end StateSynthesis
