import StateSynthesis.Amplitude.Basic
import StateSynthesis.Angles

/-!
Merging the two amplitudes that differ only in one qubit into one amplitude and two angles, such
that `a₀|0⟩ + a₁|1⟩ = r e^(it) (e^(-iφ/2) cos(θ/2)|0⟩ + e^(iφ/2) sin(θ/2)|1⟩)`. On a vector the
pairs are consecutive entries.
-/
namespace StateSynthesis

structure Bloch (α : Type) where
  merged : Amplitude α
  phi : α
  theta : α

namespace Bloch

variable {α : Type} [Scalar α]

open Scalar

def magnitude (r₀ r₁ : α) : α := sqrt (square r₀ + square r₁)
def phase (t₀ t₁ : α) : α := half (t₀ + t₁)
def phiOf (t₀ t₁ : α) : α := t₁ - t₀
def thetaOf (r₀ r₁ : α) : α := two * arctan r₁ r₀

def ofPair (a b : Amplitude α) : Bloch α :=
  ⟨⟨magnitude a.magnitude b.magnitude, phase a.phase b.phase⟩, phiOf a.phase b.phase,
    thetaOf a.magnitude b.magnitude⟩

/-- The squares of two single finite magnitudes have to stay in range. -/
def ofPair? (a b : Amplitude α) : Except (Fault α) (Bloch α) :=
  if (square? a.magnitude).isNone || (square? b.magnitude).isNone then .error .squareOverflow
  else .ok (ofPair a b)

/-- One level of disentangling: every pair of consecutive entries is merged. -/
def ofVector : List (Amplitude α) → List (Bloch α)
  | a :: b :: as => ofPair a b :: ofVector as
  | _ => []

theorem length_ofVector (as : List (Amplitude α)) : (ofVector as).length = as.length / 2 := by
  fun_induction ofVector as with
  | case1 a b as ih =>
    simp only [List.length_cons, ih]
    omega
  | case2 as h =>
    match as, h with
    | [], _ => simp
    | [_], _ => simp
    | a :: b :: as, h => exact absurd rfl (h a b as)

/-- Every other entry, from the first or from the second on. -/
def alternate : List α → List α × List α
  | [] => ([], [])
  | x :: xs => let (ys, zs) := alternate xs; (x :: zs, ys)

structure Columns (α : Type) where
  magnitudes : List α
  phases : List α
  phis : List α
  thetas : List α

/-- The same level on separate vectors of magnitudes and phases of any lengths. -/
def ofColumns (magnitudes phases : List α) : Except (Fault α) (Columns α) := do
  let (r₀, r₁) := alternate magnitudes
  let (t₀, t₁) := alternate phases
  return {
    magnitudes := ← Angles.combine magnitude r₀ r₁
    phases := ← Angles.combine phase t₀ t₁
    phis := ← Angles.combine phiOf t₀ t₁
    thetas := ← Angles.combine thetaOf r₀ r₁ }

end Bloch

end StateSynthesis
