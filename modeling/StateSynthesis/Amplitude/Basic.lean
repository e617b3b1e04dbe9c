import StateSynthesis.Cartesian
import StateSynthesis.Fault

/-!
Complex amplitudes in polar form, and vectors of them: from real and from complex numbers, padded,
normalised, and back to complex numbers. A vanishing complex number has the phase zero.
-/
namespace StateSynthesis

/-- The amplitude `magnitude · e ^ (i phase)`. The magnitude may be any number. -/
structure Amplitude (α : Type) where
  magnitude : α
  phase : α

namespace Amplitude

variable {α : Type} [Scalar α]

open Scalar

def zero : Amplitude α := ⟨Scalar.zero, Scalar.zero⟩

def toCartesian (a : Amplitude α) : Cartesian α :=
  Cartesian.ofReal a.magnitude * Cartesian.cis a.phase

/-- A negative number turns by half a turn. -/
def ofReal (x : α) : Amplitude α := ⟨abs x, if le Scalar.zero x then Scalar.zero else pi⟩

def ofCartesian (z : Cartesian α) : Amplitude α :=
  ⟨z.modulus, if z.modulus == Scalar.zero then Scalar.zero else z.argument⟩

def padTo (n : Nat) (as : List (Amplitude α)) : List (Amplitude α) :=
  as ++ List.replicate (n - as.length) zero

theorem length_padTo {n : Nat} {as : List (Amplitude α)} (h : as.length ≤ n) :
    (padTo n as).length = n := by
  simp only [padTo, List.length_append, List.length_replicate]
  omega

def norm (as : List (Amplitude α)) : α :=
  sqrt (as.foldl (fun s a => s + square a.magnitude) Scalar.zero)

/-- The vector scaled to norm one; a vector of norm zero is kept. The square of a finite magnitude
has to stay in range. -/
def normalize (as : List (Amplitude α)) : Except (Fault α) (List (Amplitude α)) :=
  if as.any fun a => (square? a.magnitude).isNone then .error .squareOverflow
  else if norm as == Scalar.zero then .ok as
  else .ok (as.map fun a => { a with magnitude := a.magnitude / norm as })

end Amplitude

end StateSynthesis
