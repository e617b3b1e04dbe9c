/-!
The arithmetic that the synthesis is written in. Every routine on angles, amplitudes and states is
stated once over a `Scalar`, with its operations in a fixed order; binary floating point is one
instance, an exact field of reals can be another.
-/
namespace StateSynthesis

/-- Comparisons answer with a `Bool`, since under binary floating point they are no order: a value
that is not a number is neither below nor above anything. -/
class Scalar (α : Type) extends Add α, Sub α, Mul α, Div α, Neg α, NatCast α, BEq α where
  lt : α → α → Bool
  le : α → α → Bool
  abs : α → α
  sqrt : α → α
  sin : α → α
  cos : α → α
  /-- `arctan y x` is the angle of the point with abscissa `x` and ordinate `y`. -/
  arctan : α → α → α
  hypot : α → α → α
  pi : α
  /-- The angle reduced into one turn, from 0 on and below 2π. -/
  wrap : α → α
  isFinite : α → Bool
  /-- The integer that the value is, if it is one. -/
  integer? : α → Option Int
  /-- The number that a text denotes. -/
  read? : String → Option α

namespace Scalar

variable {α : Type} [Scalar α]

def zero : α := ((0 : Nat) : α)
def one : α := ((1 : Nat) : α)
def two : α := ((2 : Nat) : α)

def half (x : α) : α := x / two

def square (x : α) : α := x * x

def ofInt : Int → α
  | .ofNat n => (n : α)
  | .negSucc n => -((n + 1 : Nat) : α)

/-- The square, unless a finite value leaves the range. -/
def square? (x : α) : Option α :=
  if isFinite x && !isFinite (square x) then none else some (square x)

end Scalar

end StateSynthesis
