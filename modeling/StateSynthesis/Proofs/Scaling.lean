import StateSynthesis.Proofs.ExactPreparation

/-!
Scaled vectors. The angles that merge a pair of amplitudes depend on its direction only
(`ofPair_scale`), but the recursion ends where no merged magnitude exceeds the tolerance, and these
are the magnitudes of the vector as it was handed over. So a scaled vector is disentangled as the
vector is with the reciprocal scale of that cut-off (`disentangleAbove_scale`). A vector that is
long in comparison is not cut off at all (`disentangleAbove_eq`), and otherwise a larger cut-off
ends the recursion earlier (`disentangleAbove_prefix`). Main statement: `preparation_scaled`.
-/
namespace StateSynthesis

open Sequence Amplitude List

/-! ## Scaled amplitudes -/

namespace Amplitude

/-- The magnitude times the factor, the phase as it is. -/
def scale (s : ℝ) (a : Amplitude ℝ) : Amplitude ℝ := { a with magnitude := s * a.magnitude }

theorem padTo_map_scale (s : ℝ) (n : ℕ) (as : List (Amplitude ℝ)) :
    padTo n (as.map (scale s)) = (padTo n as).map (scale s) := by
  simp [padTo, scale, zero]

theorem isZero_map_scale {s : ℝ} (hs : 0 < s) (as : List (Amplitude ℝ)) :
    Preparation.isZero (as.map (scale s)) = Preparation.isZero as := by
  have heach (a : Amplitude ℝ) :
      ((a.scale s).magnitude == Scalar.zero) = (a.magnitude == Scalar.zero) := by
    rw [Bool.eq_iff_iff, beq_real, beq_real, zero_real]
    exact mul_eq_zero_iff_left hs.ne'
  simp only [Preparation.isZero, all_map, Function.comp_def, heach]

end Amplitude

namespace Bloch

variable {s : ℝ} (hs : 0 < s)

include hs

/-- A common factor of two magnitudes is one of the merged magnitude, and no angle sees it. -/
theorem ofPair_scale (a b : Amplitude ℝ) : ofPair (a.scale s) (b.scale s) =
    { ofPair a b with merged := (ofPair a b).merged.scale s } := by
  have hmagnitude : magnitude (s * a.magnitude) (s * b.magnitude) =
      s * magnitude a.magnitude b.magnitude := by
    have hsquares : (s * a.magnitude) ^ 2 + (s * b.magnitude) ^ 2 =
        s ^ 2 * (a.magnitude ^ 2 + b.magnitude ^ 2) := by ring
    simp only [magnitude, sqrt_real, square_real]
    rw [hsquares, Real.sqrt_mul (sq_nonneg s), Real.sqrt_sq hs.le]
  have htheta : thetaOf (s * a.magnitude) (s * b.magnitude) =
      thetaOf a.magnitude b.magnitude := by
    have hpoint : (⟨s * a.magnitude, s * b.magnitude⟩ : ℂ) = s * ⟨a.magnitude, b.magnitude⟩ := by
      apply Complex.ext <;> simp
    simp only [thetaOf, arctan_real]
    rw [hpoint, Complex.arg_real_mul _ hs]
  simp only [ofPair, scale, hmagnitude, htheta]

theorem ofVector_scale (as : List (Amplitude ℝ)) : ofVector (as.map (scale s)) =
    (ofVector as).map fun b => { b with merged := b.merged.scale s } := by
  fun_induction ofVector as with
  | case1 a b as ih => simp only [map_cons, ofVector, ofPair_scale hs, ih]
  | case2 as h =>
    match as, h with
    | [], _ => rfl
    | [_], _ => rfl
    | a :: b :: as, h => exact absurd rfl (h a b as)

end Bloch

/-! ## The cut-off of its own -/

namespace Preparation

/-- The gates that disentangle the register, if magnitudes are not compared with the tolerance but
with a cut-off. -/
def disentangleAbove {α : Type} [Scalar α] (cutoff tolerance : α) :
    List Qubit → List (Amplitude α) → List (Gate α)
  | [], as => Multiplexer.leaf tolerance (fun t => Gate.gphase (-t) []) (as.map Amplitude.phase)
  | q :: qs, as =>
    let level := Bloch.ofVector as
    let phis := level.map Bloch.phi
    let thetas := level.map Bloch.theta
    let merged := level.map Bloch.merged
    (if Tolerance.anyReaches tolerance phis then
        Multiplexer.gates tolerance .z qs q [] (phis.map (- ·))
      else []) ++
    ((if Tolerance.anyReaches tolerance thetas then
        Multiplexer.gates tolerance .y qs q [] (thetas.map (- ·))
      else []) ++
    (if qs.isEmpty || merged.any (fun a => Tolerance.exceeds cutoff a.magnitude) then
        disentangleAbove cutoff tolerance qs merged
      else []))

theorem disentangleAbove_self {α : Type} [Scalar α] (τ : α) (qs : List Qubit)
    (as : List (Amplitude α)) : disentangleAbove τ τ qs as = disentangle τ qs as := by
  induction qs generalizing as with
  | nil => rfl
  | cons q qs ih => simp only [disentangleAbove, disentangle, ih]

theorem exceeds_scale {s : ℝ} (hs : 0 < s) (c x : ℝ) :
    Tolerance.exceeds c (s * x) = Tolerance.exceeds (c / s) x := by
  rw [Bool.eq_iff_iff, Tolerance.exceeds_real, Tolerance.exceeds_real, abs_mul, abs_of_pos hs,
    div_lt_iff₀' hs]

theorem disentangleAbove_scale {s : ℝ} (hs : 0 < s) (c τ : ℝ) (qs : List Qubit)
    (as : List (Amplitude ℝ)) :
    disentangleAbove c τ qs (as.map (scale s)) = disentangleAbove (c / s) τ qs as := by
  induction qs generalizing as with
  | nil => simp only [disentangleAbove, map_map, Function.comp_def, scale]
  | cons q qs ih =>
    have hmerged : ((Bloch.ofVector as).map fun b => b.merged.scale s) =
        ((Bloch.ofVector as).map Bloch.merged).map (scale s) := by
      rw [map_map]
      rfl
    have htest : (((Bloch.ofVector as).map Bloch.merged).map (scale s)).any
          (fun a => Tolerance.exceeds c a.magnitude) =
        ((Bloch.ofVector as).map Bloch.merged).any
          (fun a => Tolerance.exceeds (c / s) a.magnitude) := by
      rw [any_map]
      simp only [Function.comp_def, scale, exceeds_scale hs]
    simp only [disentangleAbove, Bloch.ofVector_scale hs, map_map, Function.comp_def]
    rw [hmerged, htest, ih]

/-- A larger cut-off ends the recursion earlier. -/
theorem disentangleAbove_prefix {c c' : ℝ} (h : c ≤ c') (τ : ℝ) (qs : List Qubit)
    (as : List (Amplitude ℝ)) : disentangleAbove c' τ qs as <+: disentangleAbove c τ qs as := by
  induction qs generalizing as with
  | nil => exact prefix_refl _
  | cons q qs ih =>
    have hdeeper (merged : List (Amplitude ℝ))
        (hm : (qs.isEmpty || merged.any fun a => Tolerance.exceeds c' a.magnitude) = true) :
        (qs.isEmpty || merged.any fun a => Tolerance.exceeds c a.magnitude) = true := by
      simp only [Bool.or_eq_true, any_eq_true, Tolerance.exceeds_real] at hm ⊢
      obtain hlast | ⟨a, ha, he⟩ := hm
      · exact Or.inl hlast
      · exact Or.inr ⟨a, ha, h.trans_lt he⟩
    refine (prefix_append_right_inj _).mpr ((prefix_append_right_inj _).mpr ?_)
    split
    · rename_i hm
      rw [if_pos (hdeeper _ hm)]
      exact ih _
    · exact nil_prefix

/-! ## Long vectors -/

/-- The vector is so long that some of `2 ^ k` entries exceeds the cut-off, however it is merged. -/
def Clears (c : ℝ) (k : ℕ) (as : List (Amplitude ℝ)) : Prop :=
  √(2 ^ k : ℕ) * c < norm₂ (2 ^ (k + 1)) (entry as)

theorem Clears.any_exceeds {c : ℝ} (hc : 0 ≤ c) {k : ℕ} {as : List (Amplitude ℝ)}
    (hl : as.length = 2 ^ (k + 1)) (h : Clears c k as) :
    ((Bloch.ofVector as).map Bloch.merged).any (fun a => Tolerance.exceeds c a.magnitude) =
      true := by
  by_contra hnone
  have hle := norm₂_le_sqrt_mul (N := 2 ^ k)
    (fun j _ => norm_entry_le hc (Bool.eq_false_iff.mpr hnone) j) hc
  rw [← Bloch.norm₂_entry_ofVector (by rw [hl, pow_succ']), ← pow_succ'] at hle
  exact absurd h (not_lt.mpr hle)

/-- One level deeper the norm is the same, of fewer entries. -/
theorem Clears.merged {c : ℝ} (hc : 0 ≤ c) {k : ℕ} {as : List (Amplitude ℝ)}
    (hl : as.length = 2 ^ (k + 2)) (h : Clears c (k + 1) as) :
    Clears c k ((Bloch.ofVector as).map Bloch.merged) := by
  have hfewer : √(2 ^ k : ℕ) ≤ √(2 ^ (k + 1) : ℕ) :=
    Real.sqrt_le_sqrt (Nat.cast_le.mpr (Nat.pow_le_pow_right two_pos k.le_succ))
  rw [Clears, ← Bloch.norm₂_entry_ofVector (by rw [hl, pow_succ']), ← pow_succ']
  exact (mul_le_mul_of_nonneg_right hfewer hc).trans_lt h

/-- No cut-off that the vector clears makes a difference, and none does for a single qubit. -/
theorem disentangleAbove_eq {c c' : ℝ} (hc : 0 ≤ c) (hc' : 0 ≤ c') (τ : ℝ) (q : Qubit)
    (qs : List Qubit) {as : List (Amplitude ℝ)} (hl : as.length = 2 ^ (qs.length + 1))
    (h : qs = [] ∨ Clears c qs.length as ∧ Clears c' qs.length as) :
    disentangleAbove c τ (q :: qs) as = disentangleAbove c' τ (q :: qs) as := by
  induction qs generalizing q as with
  | nil => rfl
  | cons q' qs ih =>
    obtain hnil | ⟨hclears, hclears'⟩ := h
    · cases hnil
    have hlevel : ((Bloch.ofVector as).map Bloch.merged).length = 2 ^ (qs.length + 1) := by
      rw [length_map, Bloch.length_ofVector, hl, length_cons, pow_succ]
      omega
    have hrest := ih q' hlevel (Or.inr ⟨hclears.merged hc hl, hclears'.merged hc' hl⟩)
    rw [disentangleAbove.eq_2 c, disentangleAbove.eq_2 c', hclears.any_exceeds hc hl,
      hclears'.any_exceeds hc' hl, hrest]

/-- A positive factor takes the cut-off with it. -/
theorem clears_div_iff {s : ℝ} (hs : 0 < s) {c : ℝ} {k : ℕ} {as : List (Amplitude ℝ)} :
    Clears (c / s) k as ↔ √(2 ^ k) * c < s * norm₂ (2 ^ (k + 1)) (entry as) := by
  rw [Clears, ← mul_div_assoc, div_lt_iff₀' hs, Nat.cast_pow, Nat.cast_two]

/-- At the larger one of two scales no cut-off makes a difference that makes none at the smaller
one. -/
theorem disentangleAbove_div_eq {τ s s' : ℝ} (hτ : 0 ≤ τ) (hs : 0 < s) (hle : s ≤ s')
    {register : List Qubit} (hne : register ≠ []) {as : List (Amplitude ℝ)}
    (hl : as.length = 2 ^ register.length)
    (h : τ = 0 ∨ register.length = 1 ∨
      √(2 ^ (register.length - 1)) * τ < s * norm₂ (2 ^ register.length) (entry as)) :
    disentangleAbove (τ / s) τ register as = disentangleAbove (τ / s') τ register as := by
  obtain ⟨q, qs, rfl⟩ := exists_cons_of_ne_nil hne
  have hs' : 0 < s' := hs.trans_le hle
  obtain rfl | hsingle | hlong := h
  · rw [zero_div, zero_div]
  · have hnil : qs = [] := length_eq_zero_iff.mp (Nat.succ.inj hsingle)
    exact disentangleAbove_eq (div_nonneg hτ hs.le) (div_nonneg hτ hs'.le) τ q qs hl (.inl hnil)
  · have hclears : Clears (τ / s) qs.length as := (clears_div_iff hs).mpr hlong
    have hclears' : Clears (τ / s') qs.length as := (clears_div_iff hs').mpr
      (hlong.trans_le (mul_le_mul_of_nonneg_right hle (norm₂_nonneg _ _)))
    exact disentangleAbove_eq (div_nonneg hτ hs.le) (div_nonneg hτ hs'.le) τ q qs hl
      (.inr ⟨hclears, hclears'⟩)

/-! ## Scaled preparations -/

/-- The same operands, with the vector scaled. -/
def scaled (p : Preparation ℝ) (s : ℝ) : Preparation ℝ :=
  { p with coefficients := p.coefficients.map (Except.map (scale s)) }

theorem scaled_one (p : Preparation ℝ) : p.scaled 1 = p := by
  have hone : (scale 1 : Amplitude ℝ → Amplitude ℝ) = id := funext fun a => by simp [scale]
  simp [scaled, hone, Except.map_id]

variable {p : Preparation ℝ} {frame : Option (Circuit ℝ)} {register controls : List Qubit}
  {as : List (Amplitude ℝ)} {s : ℝ}

theorem Admits.scaled (h : p.Admits frame register controls as) (hs : 0 < s) :
    (p.scaled s).Admits frame register controls (as.map (scale s)) where
  register_ok := h.register_ok
  controls_ok := h.controls_ok
  nonempty := h.nonempty
  distinct := h.distinct
  coefficients_eq := by
    rw [Preparation.scaled, h.coefficients_eq, map_map, map_map]
    rfl
  amplitudes_fit := by simpa using h.amplitudes_fit
  nonzero := by rw [isZero_map_scale hs, h.nonzero]

/-- The vector as it is, with the reciprocal scale of the cut-off. -/
theorem Admits.gates?_scaled (h : p.Admits frame register controls as) (hs : 0 < s) :
    (p.scaled s).gates? frame = .ok (some (controlled controls (oriented (!p.adjoint)
      (disentangleAbove (p.tolerance / s) p.tolerance register
        (padTo (dimension register.length) as))))) := by
  rw [(h.scaled hs).gates?_eq, padTo_map_scale, ← disentangleAbove_self,
    disentangleAbove_scale hs]
  rfl

end Preparation

/-! ## A basis state -/

/-- The third basis state of two qubits. -/
def thirdOfFour (τ : ℝ) : Preparation ℝ where
  tolerance := τ
  coefficients := [.ok ⟨0, 0⟩, .ok ⟨0, 0⟩, .ok ⟨1, 0⟩]
  register := .list [.qubit ⟨0, "a"⟩, .qubit ⟨1, "b"⟩]
  controls := .list []
  adjoint := false

theorem thirdOfFour_admits (τ : ℝ) : (thirdOfFour τ).Admits none [⟨0, "a"⟩, ⟨1, "b"⟩] []
    [⟨0, 0⟩, ⟨0, 0⟩, ⟨1, 0⟩] where
  register_ok := rfl
  controls_ok := rfl
  nonempty := by decide
  distinct := by decide
  coefficients_eq := rfl
  amplitudes_fit := by decide
  nonzero := Preparation.isZero_eq_false.mpr ⟨⟨1, 0⟩, by simp, by simp [toComplex]⟩

theorem norm₂_thirdOfFour : norm₂ (2 ^ 2) (entry [⟨0, 0⟩, ⟨0, 0⟩, ⟨1, 0⟩]) = 1 := by
  norm_num [norm₂, Finset.sum_range_succ, entry, toComplex, zero]

/-- With a tenth tolerated, the second qubit is flipped if the norm exceeds the cut-off. Otherwise
nothing is done. -/
theorem disentangleAbove_thirdOfFour (c : ℝ) :
    Preparation.disentangleAbove c (1 / 10) [⟨0, "a"⟩, ⟨1, "b"⟩]
        (padTo (dimension 2) [⟨0, 0⟩, ⟨0, 0⟩, ⟨1, 0⟩]) =
      if c < 1 then [Gate.basis .sdg ⟨1, "b"⟩, Gate.basis .h ⟨1, "b"⟩, Gate.rz (-Real.pi) ⟨1, "b"⟩,
        Gate.basis .h ⟨1, "b"⟩, Gate.basis .s ⟨1, "b"⟩] else [] := by
  have hupright (r : ℝ) (hr : 0 ≤ r) : Bloch.ofPair ⟨r, 0⟩ ⟨0, 0⟩ = ⟨⟨r, 0⟩, 0, 0⟩ := by
    have harg : Complex.arg ⟨r, 0⟩ = 0 := Complex.arg_ofReal_of_nonneg hr
    simp [Bloch.ofPair, Bloch.magnitude, Bloch.phase, Bloch.phiOf, Bloch.thetaOf, harg, hr]
  have hflipped : Bloch.ofPair (⟨0, 0⟩ : Amplitude ℝ) ⟨1, 0⟩ = ⟨⟨1, 0⟩, 0, Real.pi⟩ := by
    have harg : 2 * Complex.arg ⟨0, 1⟩ = Real.pi := by
      rw [show (⟨0, 1⟩ : ℂ) = Complex.I from rfl, Complex.arg_I]
      ring
    simp [Bloch.ofPair, Bloch.magnitude, Bloch.phase, Bloch.phiOf, Bloch.thetaOf, harg]
  have hpadded : padTo (dimension 2) [(⟨0, 0⟩ : Amplitude ℝ), ⟨0, 0⟩, ⟨1, 0⟩] =
      [⟨0, 0⟩, ⟨0, 0⟩, ⟨1, 0⟩, ⟨0, 0⟩] := by
    simp [padTo, zero, dimension]
  have hturn : (1 / 10 : ℝ) < |Real.pi| := by
    rw [abs_of_pos Real.pi_pos]
    linarith [Real.pi_gt_three]
  have hcut : (c < 0 ∨ c < 1) ↔ c < 1 := or_iff_right_of_imp fun h => h.trans one_pos
  have hflip : Multiplexer.gates (1 / 10) .y [] ⟨1, "b"⟩ [] [-Real.pi] =
      [Gate.basis .sdg ⟨1, "b"⟩, Gate.basis .h ⟨1, "b"⟩, Gate.rz (-Real.pi) ⟨1, "b"⟩,
        Gate.basis .h ⟨1, "b"⟩, Gate.basis .s ⟨1, "b"⟩] := by
    have hleaf : Tolerance.exceeds (1 / 10) (-Real.pi) = true := by
      rwa [Tolerance.exceeds_real, abs_neg]
    simp [Multiplexer.gates, Axis.basisChanges, Multiplexer.underOuter, Multiplexer.aboutZ,
      Multiplexer.leaf, conjugated, Sequence.inverse, Gate.inverse, Gate.basis, Kind.inverse,
      Gate.angleFor, Kind.isParametrized, hleaf, -one_div]
  rw [hpadded, ← hflip]
  norm_num [Preparation.disentangleAbove, Bloch.ofVector, hupright, hflipped, hcut, hturn.le,
    Multiplexer.leaf]

/-! ## The result -/

/-- **Scaled vectors.** At the smaller one of two scales of a vector (one of them may be one) the
disentangling may end earlier, since the magnitudes of the vector as it is are compared with the
tolerance; all gates up to there are the same. It does not end earlier if the tolerance is zero, if
the register is a single qubit, or if the vector is long enough at the smaller scale. -/
theorem preparation_scaled {p : Preparation ℝ} {frame : Option (Circuit ℝ)}
    {register controls : List Qubit} {as : List (Amplitude ℝ)}
    (h : p.Admits frame register controls as) (hτ : Tolerance.check p.tolerance = .ok ())
    {s s' : ℝ} (hs : 0 < s) (hle : s ≤ s') :
    ∃ gs gs', (p.scaled s).gates? frame = .ok (some gs) ∧
      (p.scaled s').gates? frame = .ok (some gs') ∧
      (if p.adjoint then gs <+: gs' else gs <:+ gs') ∧
      (p.tolerance = 0 ∨ register.length = 1 ∨
        √(2 ^ (register.length - 1)) * p.tolerance <
          s * norm₂ (2 ^ register.length) (entry as) → gs = gs') := by
  have hs' : 0 < s' := hs.trans_le hle
  have hτ' : 0 ≤ p.tolerance := Tolerance.check_real.mp hτ
  refine ⟨_, _, h.gates?_scaled hs, h.gates?_scaled hs', ?_, fun hlong => ?_⟩
  · have hearlier := Preparation.disentangleAbove_prefix
      (div_le_div_of_nonneg_left hτ' hs hle) p.tolerance register
      (padTo (dimension register.length) as)
    cases p.adjoint with
    | true => exact hearlier.map _
    | false => exact ((reverse_suffix.mpr hearlier).map _).map _
  · have hl : (padTo (dimension register.length) as).length = 2 ^ register.length :=
      length_padTo h.amplitudes_fit
    rw [← Preparation.entry_padTo (dimension register.length)] at hlong
    rw [Preparation.disentangleAbove_div_eq hτ' hs hle h.nonempty hl hlong]

/-- Twice the basis state is prepared as the basis state is. -/
theorem preparation_scaled_twice : ∃ gs, (thirdOfFour (1 / 10)).gates? none = .ok (some gs) ∧
    ((thirdOfFour (1 / 10)).scaled 2).gates? none = .ok (some gs) := by
  have hτ : Tolerance.check (thirdOfFour (1 / 10)).tolerance = .ok () :=
    Tolerance.check_real.mpr (by norm_num [thirdOfFour])
  obtain ⟨gs, gs', hgs, hgs', -, heq⟩ :=
    preparation_scaled (thirdOfFour_admits (1 / 10)) hτ one_pos one_le_two
  have hlong : √(2 ^ (2 - 1)) * (1 / 10) <
      1 * norm₂ (2 ^ 2) (entry [⟨0, 0⟩, ⟨0, 0⟩, ⟨1, 0⟩]) := by
    have hsqrt : √(2 : ℝ) < 2 := by
      rw [Real.sqrt_lt' two_pos]
      norm_num
    rw [norm₂_thirdOfFour, Nat.add_one_sub_one, pow_one]
    linarith
  obtain rfl := heq (.inr (.inr hlong))
  rw [Preparation.scaled_one] at hgs
  exact ⟨gs, hgs, hgs'⟩

/-- A twentieth of the basis state is not prepared at all. -/
theorem preparation_scaled_differs : ¬ ∀ (p : Preparation ℝ) (frame : Option (Circuit ℝ))
    (register controls : List Qubit) (as : List (Amplitude ℝ)) (s : ℝ),
    p.Admits frame register controls as → Tolerance.check p.tolerance = .ok () → 0 < s →
      (p.scaled s).gates? frame = p.gates? frame := by
  intro hall
  have hτ : Tolerance.check (thirdOfFour (1 / 10)).tolerance = .ok () :=
    Tolerance.check_real.mpr (by norm_num [thirdOfFour])
  have hadmits := thirdOfFour_admits (1 / 10)
  have hs : (0 : ℝ) < 1 / 20 := by norm_num
  have hbelow : (1 / 10 : ℝ) < 1 := by norm_num
  have habove : ¬ (1 / 10 / (1 / 20) : ℝ) < 1 := by norm_num
  have hsame := hall _ none _ _ _ (1 / 20) hadmits hτ hs
  rw [hadmits.gates?_scaled hs, hadmits.gates?_eq, ← Preparation.disentangleAbove_self] at hsame
  simp only [thirdOfFour, length_cons, length_nil, Nat.zero_add, Nat.reduceAdd,
    disentangleAbove_thirdOfFour, hbelow, habove, if_true, if_false] at hsame
  simp [oriented, controlled, Sequence.inverse] at hsame

end StateSynthesis
