import StateSynthesis.Dimension
import StateSynthesis.Fault

/-!
Vectors of angles: padding to the number of control states, and the sum and difference of the two
halves. Vectors whose lengths differ can be combined only if one of them has a single entry, which
then stands for all.
-/
namespace StateSynthesis.Angles

variable {α : Type} [Scalar α]

open Scalar

def padTo (n : Nat) (xs : List α) : List α := xs ++ List.replicate (n - xs.length) zero

theorem length_padTo {n : Nat} {xs : List α} (h : xs.length ≤ n) : (padTo n xs).length = n := by
  simp only [padTo, List.length_append, List.length_replicate]
  omega

/-- The angles of a rotation under `k` controls. -/
def pad (k : Nat) (xs : List α) : Except (Fault α) (List α) :=
  if dimension k < xs.length then
    .error (.tooManyAngles xs.length (.integer k) (.integer (dimension k)))
  else .ok (padTo (dimension k) xs)

/-- The halves of a vector of even length, added and subtracted. -/
def even (xs : List α) : List α :=
  List.zipWith (fun x y => half (x + y)) (xs.take (xs.length / 2)) (xs.drop (xs.length / 2))

def odd (xs : List α) : List α :=
  List.zipWith (fun x y => half (x - y)) (xs.take (xs.length / 2)) (xs.drop (xs.length / 2))

theorem length_even {xs : List α} {m : Nat} (h : xs.length = m + m) : (even xs).length = m := by
  simp only [even, List.length_zipWith, List.length_take, List.length_drop]
  omega

theorem length_odd {xs : List α} {m : Nat} (h : xs.length = m + m) : (odd xs).length = m := by
  simp only [odd, List.length_zipWith, List.length_take, List.length_drop]
  omega

/-- Combines two vectors entry by entry. -/
def combine (f : α → α → α) : List α → List α → Except (Fault α) (List α)
  | [x], ys => .ok (ys.map (f x))
  | xs, [y] => .ok (xs.map (f · y))
  | xs, ys =>
    if xs.length = ys.length then .ok (List.zipWith f xs ys)
    else .error (.unequalLengths xs.length ys.length)

/-- Sum and difference for a vector of any length, whose halves may not fit. -/
def sumDifference (xs : List α) : Except (Fault α) (List α × List α) := do
  let front := xs.take (xs.length / 2)
  let back := xs.drop (xs.length / 2)
  let sum ← combine (fun x y => half (x + y)) front back
  let difference ← combine (fun x y => half (x - y)) front back
  return (sum, difference)

omit [Scalar α] in
theorem combine_of_length_eq (f : α → α → α) (xs ys : List α) (h : xs.length = ys.length) :
    combine f xs ys = .ok (List.zipWith f xs ys) := by
  match xs, ys, h with
  | [], [], _ => rfl
  | [x], [y], _ => rfl
  | x :: x' :: xs, y :: y' :: ys, h => simpa [combine] using h

end StateSynthesis.Angles
