import StateSynthesis.Cartesian
import StateSynthesis.Fault

/-!
Comparison of state vectors, entry by entry within an absolute precision, either as they are or up
to a global phase. For the latter the second vector is turned so that the phases agree at the
largest entry of the first one, unless the second one nearly vanishes there.
-/
namespace StateSynthesis.Statevector

variable {α : Type} [Scalar α]

open Scalar

/-- Entries agree if they are equal or close; nothing is close to an entry of infinite modulus. -/
def agree (precision : α) (z w : Cartesian α) : Bool :=
  z.same w || (isFinite w.modulus && le (z - w).modulus precision)

/-- Is the number `x` preferred to the largest one so far? The first value that is not a number
wins over all. -/
def overtakes (x best : α) : Bool := best == best && (lt best x || !(x == x))

/-- Position and value of the first largest entry. -/
def largest : List α → Option (Nat × α)
  | [] => none
  | x :: xs =>
    some ((xs.zipIdx 1).foldl (fun b p => if overtakes p.1 b.2 then (p.2, p.1) else b) (0, x))

def allAgree (precision : α) (zs ws : List (Cartesian α)) : Bool :=
  (zs.zip ws).all fun p => agree precision p.1 p.2

/-- The second vector, turned to the phase of the first one at the entry `i`. -/
def align (precision : α) (i : Nat) (zs ws : List (Cartesian α)) : List (Cartesian α) :=
  let z := zs.getD i Cartesian.zero
  let w := ws.getD i Cartesian.zero
  if lt precision w.modulus then ws.map (· * Cartesian.cis (z.argument - w.argument)) else ws

def compare (ignorePhase : Bool) (precision : α) (zs ws : List (Cartesian α)) :
    Except (Fault α) Bool :=
  if zs.length ≠ ws.length then .ok false
  else if ignorePhase then
    match largest (zs.map Cartesian.modulus) with
    | none => .error .emptyMaximum
    | some (i, _) => .ok (allAgree precision zs (align precision i zs ws))
  else .ok (allAgree precision zs ws)

end StateSynthesis.Statevector
