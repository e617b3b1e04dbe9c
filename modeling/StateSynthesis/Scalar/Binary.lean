import StateSynthesis.Scalar
import StateSynthesis.Decimal.Notation

/-!
Binary floating point as a scalar. The remainder modulo a turn is exact, and the length of a plane
vector loses less than one unit in the last place, without overflow on the way.
-/
namespace StateSynthesis

namespace Binary

open Decimal

/-- The square root of `a² + b²` for `b ≤ a`, with one correction for what the squares and the root
have rounded away. -/
def correctedRoot (a b : Float) : Float :=
  let h := Float.sqrt (a * a + b * b)
  let error :=
    if h ≤ 2.0 * b then
      let d := h - b
      a * (2.0 * d - a) + (d - 2.0 * (a - b)) * d
    else
      let d := h - a
      2.0 * d * (a - 2.0 * b) + ((4.0 * d - b) * b + d * d)
  h - error / (2.0 * h)

/-- Very large and very small vectors are rescaled first; a side that is too short to matter is
only added. -/
def hypot (x y : Float) : Float :=
  if x.isInf || y.isInf then Float.abs (1.0 / 0.0)
  else if x.isNaN || y.isNaN then x + y
  else
    let a := if x.abs < y.abs then y.abs else x.abs
    let b := if x.abs < y.abs then x.abs else y.abs
    let short := b ≤ a * Float.scaleB 1.0 (-54)
    if Float.scaleB 1.0 511 < a then
      if short then a + b
      else Float.scaleB (correctedRoot (Float.scaleB a (-600)) (Float.scaleB b (-600))) 600
    else if b < Float.scaleB 1.0 (-459) then
      if b / Float.scaleB 1.0 (-54) ≤ a then a + b
      else Float.scaleB (correctedRoot (Float.scaleB a 600) (Float.scaleB b 600)) (-600)
    else if short then a + b
    else correctedRoot a b

def pi : Float := 3.141592653589793

/-- The remainder of the absolute value of `x` modulo the positive number `y`, exactly. -/
def remainder (x y : Exact) : Float :=
  let e := min x.exponent y.exponent
  let r := (x.mantissa * pow2 (x.exponent - e).toNat) % (y.mantissa * pow2 (y.exponent - e).toNat)
  Float.scaleB (Float.ofNat r) e

/-- A negative angle is reduced by its absolute value and then turned once forward, unless nothing
but the sign is left. -/
def wrap (x : Float) : Float :=
  match decode x, decode (2.0 * pi) with
  | .finite v, .finite turn =>
    let r := remainder v turn
    if v.negative then
      if r == 0.0 then -r else -r + 2.0 * pi
    else r
  | _, _ => 0.0 / 0.0

/-- Every value but the infinities and the absent number is known exactly. -/
def integer? (x : Float) : Option Int :=
  match decode x with
  | .finite v => v.integer?
  | _ => none

end Binary

instance natCastFloat : NatCast Float := ⟨Float.ofNat⟩

instance scalarFloat : Scalar Float where
  lt x y := x < y
  le x y := x ≤ y
  abs := Float.abs
  sqrt := Float.sqrt
  sin := Float.sin
  cos := Float.cos
  arctan := Float.atan2
  hypot := Binary.hypot
  pi := Binary.pi
  wrap := Binary.wrap
  isFinite := Float.isFinite
  integer? := Binary.integer?
  read? := Decimal.number?

end StateSynthesis
