import StateSynthesis.Preparation
import StateSynthesis.Proofs.Exact

/-!
Tests that only save work. The recursions of the synthesis test a vector of angles before they go
into it, although every single angle is tested in the end. Without some of these tests they go into
more vectors, but what is within the tolerance stays within it in all halves (`within_even`,
`within_odd`), so nothing comes out of these vectors (`aboutZ_eq_nil`), and nothing is put around
nothing. Main statement: `pruning_redundant`.
-/
namespace StateSynthesis

open Sequence

/-- Which of the tests on vectors of angles are made. -/
structure Tests where
  /-- In front of the difference of the halves, in a multiplexer about `z`. -/
  difference : Bool
  /-- In front of the half under the outer controls. -/
  outer : Bool
  /-- In front of the phases of a level. -/
  phis : Bool
  /-- In front of the weights of a level. -/
  thetas : Bool

namespace Tests

section Recursions

variable {α : Type} [Scalar α]

/-- The gates behind a test, which come in any case if the test is not made. -/
def behind (made : Bool) (tolerance : α) (angles : List α) (gs : List (Gate α)) : List (Gate α) :=
  if !made || Tolerance.anyReaches tolerance angles then gs else []

def aboutZ (tests : Tests) (tolerance : α) (target : Qubit) :
    List Qubit → List α → List (Gate α)
  | [], angles => Multiplexer.leaf tolerance (Gate.rz · target) angles
  | c :: cs, angles =>
    tests.aboutZ tolerance target cs (Angles.even angles) ++
      behind tests.difference tolerance (Angles.odd angles)
        (conjugated [Gate.x target [c]] (tests.aboutZ tolerance target cs (Angles.odd angles)))

def underOuter (tests : Tests) (tolerance : α) (target : Qubit) (controls outer : List Qubit)
    (angles : List α) : List (Gate α) :=
  if outer.isEmpty then tests.aboutZ tolerance target controls angles
  else
    let doubled := List.replicate angles.length Scalar.zero ++ angles
    tests.aboutZ tolerance target controls (Angles.even doubled) ++
      behind tests.outer tolerance (Angles.odd doubled)
        (conjugated [Gate.x target outer]
          (tests.aboutZ tolerance target controls (Angles.odd doubled)))

def gates (tests : Tests) (tolerance : α) (axis : Axis) (controls : List Qubit) (target : Qubit)
    (outer : List Qubit) (angles : List α) : List (Gate α) :=
  match axis with
  | .identity => Multiplexer.leaf tolerance (fun a => Gate.gphase (Scalar.half (-a)) outer) angles
  | axis => axis.basisChanges.foldr (fun k body => conjugated [Gate.basis k target] body)
      (tests.underOuter tolerance target controls.reverse outer angles)

def disentangle (tests : Tests) (tolerance : α) :
    List Qubit → List (Amplitude α) → List (Gate α)
  | [], as =>
    Multiplexer.leaf tolerance (fun t => Gate.gphase (-t) []) (as.map Amplitude.phase)
  | q :: qs, as =>
    let level := Bloch.ofVector as
    let phis := level.map Bloch.phi
    let thetas := level.map Bloch.theta
    let merged := level.map Bloch.merged
    behind tests.phis tolerance phis (tests.gates tolerance .z qs q [] (phis.map (- ·))) ++
    (behind tests.thetas tolerance thetas
        (tests.gates tolerance .y qs q [] (thetas.map (- ·))) ++
    (if qs.isEmpty || merged.any (fun a => Tolerance.exceeds tolerance a.magnitude) then
        tests.disentangle tolerance qs merged
      else []))

end Recursions

/-! ## Vectors within the tolerance -/

/-- No angle is outside of the tolerance. -/
def Within (τ : ℝ) (angles : List ℝ) : Prop := ∀ x ∈ angles, |x| ≤ τ

variable {τ : ℝ} {angles : List ℝ}

theorem within_of_not_anyReaches (h : Tolerance.anyReaches τ angles = false) :
    Within τ angles := by
  intro x hx
  by_contra hlt
  have hreaches : Tolerance.anyReaches τ angles = true :=
    (Tolerance.anyReaches_real τ angles).mpr ⟨x, hx, (not_le.mp hlt).le⟩
  rw [h] at hreaches
  cases hreaches

theorem Within.map_neg (h : Within τ angles) : Within τ (angles.map (- ·)) := by
  intro x hx
  obtain ⟨y, hy, rfl⟩ := List.mem_map.mp hx
  rw [abs_neg]
  exact h y hy

theorem abs_half_add_le {x y : ℝ} (hx : |x| ≤ τ) (hy : |y| ≤ τ) : |(x + y) / 2| ≤ τ := by
  rw [abs_le] at hx hy ⊢
  constructor <;> linarith

theorem abs_half_sub_le {x y : ℝ} (hx : |x| ≤ τ) (hy : |y| ≤ τ) : |(x - y) / 2| ≤ τ := by
  rw [abs_le] at hx hy ⊢
  constructor <;> linarith

/-- Entry by entry, two parts of the vector. -/
theorem within_zipWith {f : ℝ → ℝ → ℝ} {xs ys : List ℝ}
    (hf : ∀ {x y}, |x| ≤ τ → |y| ≤ τ → |f x y| ≤ τ) (hx : Within τ xs) (hy : Within τ ys) :
    Within τ (List.zipWith f xs ys) := by
  induction xs generalizing ys with
  | nil => simp [Within]
  | cons x xs ih =>
    cases ys with
    | nil => simp [Within]
    | cons y ys =>
      obtain ⟨hx, hxs⟩ := List.forall_mem_cons.mp hx
      obtain ⟨hy, hys⟩ := List.forall_mem_cons.mp hy
      exact List.forall_mem_cons.mpr ⟨hf hx hy, ih hxs hys⟩

theorem within_even (h : Within τ angles) : Within τ (Angles.even angles) := by
  refine within_zipWith (fun hx hy => ?_) (fun x hx => h x (List.mem_of_mem_take hx))
    (fun x hx => h x (List.mem_of_mem_drop hx))
  rw [half_real]
  exact abs_half_add_le hx hy

theorem within_odd (h : Within τ angles) : Within τ (Angles.odd angles) := by
  refine within_zipWith (fun hx hy => ?_) (fun x hx => h x (List.mem_of_mem_take hx))
    (fun x hx => h x (List.mem_of_mem_drop hx))
  rw [half_real]
  exact abs_half_sub_le hx hy

/-! ## Nothing comes out of them -/

theorem conjugated_nil (vs : List (Gate ℝ)) : conjugated vs [] = [] := rfl

/-- A test that is not made makes no difference where nothing comes out of what it would skip. -/
theorem behind_eq (made : Bool) {gs : List (Gate ℝ)} (h : Within τ angles → gs = []) :
    behind made τ angles gs = if Tolerance.anyReaches τ angles then gs else [] := by
  unfold behind
  cases hr : Tolerance.anyReaches τ angles with
  | true => simp
  | false =>
    rw [h (within_of_not_anyReaches hr)]
    simp

section Nothing

variable (hτ : 0 ≤ τ) (tests : Tests)

include hτ

omit tests in
theorem leaf_eq_nil (gate : ℝ → Gate ℝ) (h : Within τ angles) :
    Multiplexer.leaf τ gate angles = [] := by
  have hhead : |angles.headD Scalar.zero| ≤ τ := by
    cases angles with
    | nil => simpa using hτ
    | cons x xs => exact h x (List.mem_cons_self ..)
  rw [Multiplexer.leaf, if_neg]
  rw [Tolerance.exceeds_real, not_lt]
  exact hhead

theorem aboutZ_eq_nil (target : Qubit) (cs : List Qubit) (h : Within τ angles) :
    tests.aboutZ τ target cs angles = [] := by
  induction cs generalizing angles with
  | nil => exact leaf_eq_nil hτ _ h
  | cons c cs ih =>
    rw [aboutZ, ih (within_even h), ih (within_odd h), conjugated_nil, List.nil_append, behind,
      ite_self]

/-- Without outer controls, and about an axis. -/
theorem gates_eq_nil {axis : Axis} (haxis : axis ≠ .identity) (controls : List Qubit)
    (target : Qubit) (h : Within τ angles) : tests.gates τ axis controls target [] angles = [] := by
  have hnil : tests.underOuter τ target controls.reverse [] angles = [] :=
    aboutZ_eq_nil hτ tests target _ h
  cases axis with
  | identity => exact absurd rfl haxis
  | _ =>
    simp only [gates, hnil]
    rfl

end Nothing

/-! ## The recursions -/

section Recursions

variable (hτ : 0 ≤ τ) (tests : Tests)

include hτ

theorem aboutZ_eq (target : Qubit) (cs : List Qubit) (angles : List ℝ) :
    tests.aboutZ τ target cs angles = Multiplexer.aboutZ τ target cs angles := by
  induction cs generalizing angles with
  | nil => rfl
  | cons c cs ih =>
    have hskipped (h : Within τ (Angles.odd angles)) : conjugated [Gate.x target [c]]
        (tests.aboutZ τ target cs (Angles.odd angles)) = [] := by
      rw [aboutZ_eq_nil hτ tests target cs h, conjugated_nil]
    rw [aboutZ, Multiplexer.aboutZ, behind_eq _ hskipped, ih, ih]

theorem underOuter_eq (target : Qubit) (controls outer : List Qubit) (angles : List ℝ) :
    tests.underOuter τ target controls outer angles =
      Multiplexer.underOuter τ target controls outer angles := by
  unfold underOuter Multiplexer.underOuter
  split
  · exact aboutZ_eq hτ tests target controls angles
  · have hskipped (odd : List ℝ) (h : Within τ odd) : conjugated [Gate.x target outer]
        (tests.aboutZ τ target controls odd) = [] := by
      rw [aboutZ_eq_nil hτ tests target controls h, conjugated_nil]
    dsimp only
    rw [behind_eq _ (hskipped _), aboutZ_eq hτ, aboutZ_eq hτ]

theorem gates_eq (axis : Axis) (controls : List Qubit) (target : Qubit) (outer : List Qubit)
    (angles : List ℝ) : tests.gates τ axis controls target outer angles =
      Multiplexer.gates τ axis controls target outer angles := by
  cases axis with
  | identity => rfl
  | _ => simp only [gates, Multiplexer.gates, underOuter_eq hτ]

theorem disentangle_eq (qs : List Qubit) (as : List (Amplitude ℝ)) :
    tests.disentangle τ qs as = Preparation.disentangle τ qs as := by
  induction qs generalizing as with
  | nil => rfl
  | cons q qs ih =>
    have hlevel {axis : Axis} (haxis : axis ≠ .identity) (made : Bool) (angles : List ℝ) :
        behind made τ angles (tests.gates τ axis qs q [] (angles.map (- ·))) =
          if Tolerance.anyReaches τ angles then
            Multiplexer.gates τ axis qs q [] (angles.map (- ·))
          else [] := by
      rw [behind_eq made fun h => gates_eq_nil hτ tests haxis qs q h.map_neg, gates_eq hτ]
    have hz : Axis.z ≠ .identity := by decide
    have hy : Axis.y ≠ .identity := by decide
    simp only [disentangle, Preparation.disentangle, hlevel hz, hlevel hy, ih]

end Recursions

end Tests

/-! ## The result -/

/-- **Pruning.** Whichever of the tests on vectors are made, a multiplexer, a multiplexer under
outer controls and a disentangled register emit the same gates. -/
theorem pruning_redundant {τ : ℝ} (hτ : 0 ≤ τ) (tests : Tests) :
    (∀ target controls angles, tests.aboutZ τ target controls angles =
      Multiplexer.aboutZ τ target controls angles) ∧
    (∀ target controls outer angles, tests.underOuter τ target controls outer angles =
      Multiplexer.underOuter τ target controls outer angles) ∧
    (∀ axis controls target outer angles, tests.gates τ axis controls target outer angles =
      Multiplexer.gates τ axis controls target outer angles) ∧
    ∀ register amplitudes, tests.disentangle τ register amplitudes =
      Preparation.disentangle τ register amplitudes :=
  ⟨Tests.aboutZ_eq hτ tests, Tests.underOuter_eq hτ tests, Tests.gates_eq hτ tests,
    Tests.disentangle_eq hτ tests⟩

/-- Without a test the sum of the angles is gone into as well, and still comes to nothing. -/
theorem pruning_redundant_pair : (⟨false, false, false, false⟩ : Tests).aboutZ (1 / 2) ⟨0, "t"⟩
      [⟨2, "d"⟩, ⟨1, "c"⟩] [(1 : ℝ), -1, 1, -1] =
    [Gate.x ⟨0, "t"⟩ [⟨1, "c"⟩], Gate.rz 1 ⟨0, "t"⟩, Gate.x ⟨0, "t"⟩ [⟨1, "c"⟩]] := by
  rw [(pruning_redundant (by norm_num) _).1]
  norm_num [Multiplexer.aboutZ, Multiplexer.leaf, Angles.even, Angles.odd, conjugated,
    Tolerance.exceeds, Tolerance.anyReaches, Sequence.inverse, Gate.inverse, Gate.x, Gate.rz,
    Kind.inverse, Gate.angleFor]

end StateSynthesis
