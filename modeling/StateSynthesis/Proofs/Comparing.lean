import StateSynthesis.Proofs.Exact
import StateSynthesis.Statevector.Comparison

/-!
Comparison up to a global phase. The second vector is turned to the phase of the first one at the
first largest entry of that (`largest_eq`), unless its own entry there is not longer than the
precision. Where it is turned, global phases of the two vectors drop out (`Peak.near_turned_iff`).
Where it is not, the vectors are compared as they are and the difference of their phases counts
(`Peak.compare_short_turned`), so a vector may be told apart from a turned copy of itself
(`compare_short_differs`). Main statement: `compare_upToPhase`.
-/
namespace StateSynthesis

open Complex

namespace Cartesian

@[simp] theorem toComplex_sub (z w : Cartesian ℝ) :
    (z - w).toComplex = z.toComplex - w.toComplex := rfl

theorem norm_cis_mul (t : ℝ) (z : Cartesian ℝ) : ‖(cis t * z).toComplex‖ = ‖z.toComplex‖ := by
  rw [toComplex_mul, toComplex_cis, norm_mul, norm_exp_ofReal_mul_I, one_mul]

theorem argument_eq_arg (z : Cartesian ℝ) : z.argument = arg z.toComplex := rfl

end Cartesian

/-! ## Unit phases -/

/-- The direction of a number; that of zero is one. -/
noncomputable def direction (z : ℂ) : ℂ := exp (arg z * I)

theorem norm_direction (z : ℂ) : ‖direction z‖ = 1 := norm_exp_ofReal_mul_I _

theorem direction_ne_zero (z : ℂ) : direction z ≠ 0 := exp_ne_zero _

theorem direction_turned (t : ℝ) {z : ℂ} (hz : z ≠ 0) :
    direction (exp (t * I) * z) = exp (t * I) * direction z := by
  have hpolar (w : ℂ) : (‖w‖ : ℂ) * direction w = w := norm_mul_exp_arg_mul_I w
  have hnorm : ‖exp (t * I) * z‖ = ‖z‖ := by
    rw [norm_mul, norm_exp_ofReal_mul_I, one_mul]
  have hne : (‖z‖ : ℂ) ≠ 0 := ofReal_ne_zero.mpr (norm_ne_zero_iff.mpr hz)
  apply mul_left_cancel₀ hne
  calc (‖z‖ : ℂ) * direction (exp (t * I) * z)
      = exp (t * I) * z := by rw [← hnorm, hpolar]
    _ = exp (t * I) * (‖z‖ * direction z) := by rw [hpolar]
    _ = ‖z‖ * (exp (t * I) * direction z) := mul_left_comm _ _ _

theorem exp_sub_arg (z w : ℂ) :
    exp ((arg z - arg w : ℝ) * I) = direction z / direction w := by
  rw [direction, direction, ← exp_sub, ofReal_sub, sub_mul]

namespace Statevector

/-! ## The first largest entry -/

/-- The first largest number stands at `i` and is `m`. -/
structure FirstLargest (xs : List ℝ) (i : ℕ) (m : ℝ) : Prop where
  getElem?_eq : xs[i]? = some m
  le_of_mem : ∀ x ∈ xs, x ≤ m
  lt_of_lt : ∀ j < i, ∀ x, xs[j]? = some x → x < m

theorem overtakes_real (x m : ℝ) : overtakes x m = true ↔ m < x := by simp [overtakes]

theorem FirstLargest.lt_length {xs : List ℝ} {i : ℕ} {m : ℝ} (h : FirstLargest xs i m) :
    i < xs.length := (List.getElem?_eq_some_iff.mp h.getElem?_eq).1

theorem FirstLargest.unique {xs : List ℝ} {i j : ℕ} {m n : ℝ} (hi : FirstLargest xs i m)
    (hj : FirstLargest xs j n) : i = j ∧ m = n := by
  have hmn : m = n := le_antisymm (hj.le_of_mem m (List.mem_of_getElem? hi.getElem?_eq))
    (hi.le_of_mem n (List.mem_of_getElem? hj.getElem?_eq))
  refine ⟨?_, hmn⟩
  rcases lt_trichotomy i j with hlt | heq | hgt
  · exact absurd hmn (hj.lt_of_lt i hlt m hi.getElem?_eq).ne
  · exact heq
  · exact absurd hmn (hi.lt_of_lt j hgt n hj.getElem?_eq).ne'

/-- One more number, which takes over only if it is larger. -/
theorem FirstLargest.concat {xs : List ℝ} {i : ℕ} {m : ℝ} (h : FirstLargest xs i m) (x : ℝ) :
    if m < x then FirstLargest (xs ++ [x]) xs.length x else FirstLargest (xs ++ [x]) i m := by
  have hi : i < xs.length := h.lt_length
  split
  · rename_i hx
    refine ⟨by simp, fun y hy => ?_, fun j hj y hy => ?_⟩
    · rcases List.mem_append.mp hy with hy | hy
      · exact (h.le_of_mem y hy).trans hx.le
      · exact (List.mem_singleton.mp hy).le
    · rw [List.getElem?_append_left hj] at hy
      exact (h.le_of_mem y (List.mem_of_getElem? hy)).trans_lt hx
  · rename_i hx
    refine ⟨by rw [List.getElem?_append_left hi, h.getElem?_eq], fun y hy => ?_,
      fun j hj y hy => ?_⟩
    · rcases List.mem_append.mp hy with hy | hy
      · exact h.le_of_mem y hy
      · rw [List.mem_singleton.mp hy]
        exact not_lt.mp hx
    · rw [List.getElem?_append_left (hj.trans hi)] at hy
      exact h.lt_of_lt j hj y hy

/-- What the search keeps: it has the first largest of the numbers that it has gone through. -/
theorem FirstLargest.foldl {xs : List ℝ} {i : ℕ} {m : ℝ} (h : FirstLargest xs i m) (ys : List ℝ) :
    ∃ j n, (ys.zipIdx xs.length).foldl
        (fun b p => if overtakes p.1 b.2 then (p.2, p.1) else b) (i, m) = (j, n) ∧
      FirstLargest (xs ++ ys) j n := by
  induction ys generalizing xs i m with
  | nil => exact ⟨i, m, rfl, by rwa [List.append_nil]⟩
  | cons y ys ih =>
    have hnext := h.concat y
    have hlen : xs.length + 1 = (xs ++ [y]).length := by simp
    rw [List.zipIdx_cons, List.foldl_cons, hlen, show xs ++ y :: ys = (xs ++ [y]) ++ ys by simp]
    by_cases hy : m < y
    · rw [if_pos hy] at hnext
      rw [if_pos ((overtakes_real y m).mpr hy)]
      exact ih hnext
    · rw [if_neg hy] at hnext
      rw [if_neg fun ho => hy ((overtakes_real y m).mp ho)]
      exact ih hnext

theorem largest_eq {xs : List ℝ} (h : xs ≠ []) :
    ∃ i m, largest xs = some (i, m) ∧ FirstLargest xs i m := by
  cases xs with
  | nil => exact absurd rfl h
  | cons x xs =>
    have hfirst : FirstLargest [x] 0 x := ⟨rfl, by simp, by simp⟩
    obtain ⟨i, m, he, hm⟩ := hfirst.foldl xs
    exact ⟨i, m, congrArg some he, hm⟩

/-! ## Agreement -/

variable {p : ℝ} {zs ws : List (Cartesian ℝ)}

theorem agree_real (hp : 0 ≤ p) (z w : Cartesian ℝ) :
    agree p z w = true ↔ ‖z.toComplex - w.toComplex‖ ≤ p := by
  have hsame : z.same w = true → ‖z.toComplex - w.toComplex‖ ≤ p := fun h => by
    have he : z = w := by
      cases z
      cases w
      simpa [Cartesian.same] using h
    rw [he, sub_self, norm_zero]
    exact hp
  rw [agree, Bool.or_eq_true, Bool.and_eq_true, le_real, Amplitude.modulus_eq_norm (z - w),
    Cartesian.toComplex_sub]
  exact ⟨fun h => h.elim hsame And.right, fun h => Or.inr ⟨rfl, h⟩⟩

/-- The entries of the first vector are close to `c` times those of the second one. -/
def Near (p : ℝ) (c : ℂ) (zs ws : List (Cartesian ℝ)) : Prop :=
  ∀ q ∈ zs.zip ws, ‖q.1.toComplex - c * q.2.toComplex‖ ≤ p

theorem allAgree_iff_near (hp : 0 ≤ p) : allAgree p zs ws = true ↔ Near p 1 zs ws := by
  simp only [allAgree, List.all_eq_true, agree_real hp, Near, one_mul]

theorem near_map_mul (t : ℝ) :
    Near p 1 zs (ws.map (· * Cartesian.cis t)) ↔ Near p (exp (t * I)) zs ws := by
  simp only [Near, List.zip_map_right, List.forall_mem_map, Prod.map_fst, Prod.map_snd, id,
    Cartesian.toComplex_mul, Cartesian.toComplex_cis, one_mul, mul_comm (exp _)]

/-! ## Turned vectors -/

/-- The vector times `e ^ (i t)`. -/
noncomputable def turned (t : ℝ) (zs : List (Cartesian ℝ)) : List (Cartesian ℝ) :=
  zs.map (Cartesian.cis t * ·)

theorem near_turned_left (c : ℂ) (t : ℝ) :
    Near p c (turned t zs) ws ↔ Near p (exp (-(t * I)) * c) zs ws := by
  have hterm (z w : ℂ) : ‖exp (t * I) * z - c * w‖ = ‖z - exp (-(t * I)) * c * w‖ := by
    have hcancel : exp (t * I) * exp (-(t * I)) = 1 := by rw [← exp_add, add_neg_cancel, exp_zero]
    calc ‖exp (t * I) * z - c * w‖
        = ‖exp (t * I) * (z - exp (-(t * I)) * c * w)‖ := by
          rw [mul_sub, ← mul_assoc, ← mul_assoc, hcancel, one_mul]
      _ = ‖z - exp (-(t * I)) * c * w‖ := by rw [norm_mul, norm_exp_ofReal_mul_I, one_mul]
  simp only [Near, turned, List.zip_map_left, List.forall_mem_map, Prod.map_fst, Prod.map_snd, id,
    Cartesian.toComplex_mul, Cartesian.toComplex_cis, hterm]

theorem near_turned_right (c : ℂ) (t : ℝ) :
    Near p c zs (turned t ws) ↔ Near p (c * exp (t * I)) zs ws := by
  simp only [Near, turned, List.zip_map_right, List.forall_mem_map, Prod.map_fst, Prod.map_snd, id,
    Cartesian.toComplex_mul, Cartesian.toComplex_cis, mul_assoc]

theorem near_turned (c : ℂ) (α β : ℝ) : Near p c (turned α zs) (turned β ws) ↔
    Near p (exp (-(α * I)) * c * exp (β * I)) zs ws := by
  rw [near_turned_left, near_turned_right]

theorem near_self {c : ℂ} : Near p c zs zs ↔ ∀ z ∈ zs, ‖z.toComplex - c * z.toComplex‖ ≤ p := by
  have hzip : zs.zip zs = zs.map fun z => (z, z) := by
    simpa using List.zip_map' (f := id) (g := id) (l := zs)
  rw [Near, hzip]
  exact List.forall_mem_map

/-! ## Peaks -/

/-- The first vector has its first largest entry `z` at `i`, and the second one has `w` there. -/
structure Peak (zs ws : List (Cartesian ℝ)) (i : ℕ) (z w : Cartesian ℝ) : Prop where
  length_eq : zs.length = ws.length
  left_eq : zs[i]? = some z
  right_eq : ws[i]? = some w
  firstLargest : FirstLargest (zs.map fun y => ‖y.toComplex‖) i ‖z.toComplex‖

variable {i : ℕ} {z w : Cartesian ℝ}

theorem exists_peak (hl : zs.length = ws.length) (hz : zs ≠ []) : ∃ i z w, Peak zs ws i z w := by
  have hne : (zs.map fun y => ‖y.toComplex‖) ≠ [] := by simpa using hz
  obtain ⟨i, m, -, h⟩ := largest_eq hne
  have hi : i < zs.length := by simpa using h.lt_length
  have hm : ‖(zs[i]).toComplex‖ = m := by simpa [hi] using h.getElem?_eq
  exact ⟨i, zs[i], ws[i], hl, List.getElem?_eq_getElem hi, List.getElem?_eq_getElem (hl ▸ hi),
    hm ▸ h⟩

theorem Peak.both_turned (h : Peak zs ws i z w) (α β : ℝ) :
    Peak (turned α zs) (turned β ws) i (Cartesian.cis α * z) (Cartesian.cis β * w) where
  length_eq := by simpa [turned] using h.length_eq
  left_eq := by simp [turned, h.left_eq]
  right_eq := by simp [turned, h.right_eq]
  firstLargest := by
    simpa [turned, Cartesian.norm_cis_mul, Function.comp_def] using h.firstLargest

theorem Peak.right_turned (h : Peak zs ws i z w) (t : ℝ) :
    Peak zs (turned t ws) i z (Cartesian.cis t * w) where
  length_eq := by simpa [turned] using h.length_eq
  left_eq := h.left_eq
  right_eq := by simp [turned, h.right_eq]
  firstLargest := h.firstLargest

theorem Peak.self (h : Peak zs ws i z w) : Peak zs zs i z z :=
  ⟨rfl, h.left_eq, h.left_eq, h.firstLargest⟩

theorem Peak.norm_le (h : Peak zs ws i z w) {y : Cartesian ℝ} (hy : y ∈ zs) :
    ‖y.toComplex‖ ≤ ‖z.toComplex‖ := h.firstLargest.le_of_mem _ (List.mem_map_of_mem hy)

theorem Peak.mem_zip (h : Peak zs ws i z w) : (z, w) ∈ zs.zip ws :=
  List.mem_of_getElem? (List.getElem?_zip_eq_some.mpr ⟨h.left_eq, h.right_eq⟩)

theorem Peak.largest_eq (h : Peak zs ws i z w) :
    largest (zs.map Cartesian.modulus) = some (i, ‖z.toComplex‖) := by
  have hne : zs.map Cartesian.modulus ≠ [] := fun he => by
    have hz : zs = [] := List.map_eq_nil_iff.mp he
    simpa [hz] using h.left_eq
  obtain ⟨j, m, he, hj⟩ := Statevector.largest_eq hne
  have hmod : zs.map Cartesian.modulus = zs.map fun y => ‖y.toComplex‖ :=
    List.map_congr_left fun y _ => Amplitude.modulus_eq_norm y
  rw [hmod] at hj
  obtain ⟨rfl, rfl⟩ := h.firstLargest.unique hj
  exact he

/-! ## The comparison -/

/-- What the second vector is multiplied by before the comparison: the quotient of the phases at the
peak, if its entry there is longer than the precision. -/
noncomputable def turn (p : ℝ) (z w : Cartesian ℝ) : ℂ :=
  if p < ‖w.toComplex‖ then direction z.toComplex / direction w.toComplex else 1

theorem norm_turn (p : ℝ) (z w : Cartesian ℝ) : ‖turn p z w‖ = 1 := by
  unfold turn
  split
  · rw [norm_div, norm_direction, norm_direction, div_one]
  · exact norm_one

theorem Peak.allAgree_align (h : Peak zs ws i z w) (hp : 0 ≤ p) :
    allAgree p zs (align p i zs ws) = true ↔ Near p (turn p z w) zs ws := by
  have hz : zs.getD i Cartesian.zero = z := by rw [List.getD_eq_getElem?_getD, h.left_eq]; rfl
  have hw : ws.getD i Cartesian.zero = w := by rw [List.getD_eq_getElem?_getD, h.right_eq]; rfl
  rw [allAgree_iff_near hp]
  simp only [align, hz, hw, lt_real, Amplitude.modulus_eq_norm, turn]
  split
  · rw [near_map_mul, Cartesian.argument_eq_arg, Cartesian.argument_eq_arg, exp_sub_arg]
  · rfl

/-- The comparison up to a phase asks whether the vectors are near after the turn. -/
theorem Peak.exists_compare (h : Peak zs ws i z w) (hp : 0 ≤ p) :
    ∃ b, compare true p zs ws = .ok b ∧ (b = true ↔ Near p (turn p z w) zs ws) := by
  refine ⟨_, ?_, h.allAgree_align hp⟩
  simp only [compare, h.length_eq, h.largest_eq, ne_eq, not_true_eq_false, ↓reduceIte]

theorem exists_compare_plain (hl : zs.length = ws.length) (hp : 0 ≤ p) :
    ∃ b, compare false p zs ws = .ok b ∧ (b = true ↔ Near p 1 zs ws) := by
  refine ⟨_, ?_, allAgree_iff_near hp⟩
  simp only [compare, hl, ne_eq, not_true_eq_false, ↓reduceIte, Bool.false_eq_true]

/-- Answers with the same meaning are the same. -/
theorem compare_congr {zs' ws' : List (Cartesian ℝ)} {m n b b' : Bool} {P P' : Prop}
    (h : compare m p zs ws = .ok b ∧ (b = true ↔ P))
    (h' : compare n p zs' ws' = .ok b' ∧ (b' = true ↔ P')) (hP : P ↔ P') :
    compare m p zs ws = compare n p zs' ws' := by
  rw [h.1, h'.1, Bool.eq_iff_iff.mpr (h.2.trans (hP.trans h'.2.symm))]

/-- Where the second vector is turned, the phases of both drop out. -/
theorem Peak.near_turned_long (h : Peak zs ws i z w) (hp : 0 ≤ p) (hw : p < ‖w.toComplex‖)
    (α β : ℝ) : Near p (turn p (Cartesian.cis α * z) (Cartesian.cis β * w))
        (turned α zs) (turned β ws) ↔ Near p (turn p z w) zs ws := by
  rw [near_turned]
  by_cases hz : z.toComplex = 0
  · -- All entries of the first vector are zero, and only lengths count.
    have hnear (c : ℂ) (hc : ‖c‖ = 1) : Near p c zs ws ↔ Near p 1 zs ws := by
      refine forall₂_congr fun q hq => ?_
      have hq0 : q.1.toComplex = 0 := by
        have hle := h.norm_le (List.of_mem_zip hq).1
        rw [hz, norm_zero] at hle
        exact norm_le_zero_iff.mp hle
      rw [hq0, zero_sub, zero_sub, norm_neg, norm_neg, norm_mul, norm_mul, hc, norm_one]
    have hunit : ‖exp (-(α * I)) * turn p (Cartesian.cis α * z) (Cartesian.cis β * w) *
        exp (β * I)‖ = 1 := by
      rw [norm_mul, norm_mul, norm_turn, norm_exp_ofReal_mul_I, exp_neg, norm_inv,
        norm_exp_ofReal_mul_I, inv_one, one_mul, one_mul]
    rw [hnear _ hunit, hnear _ (norm_turn p z w)]
  · have hw0 : w.toComplex ≠ 0 := norm_pos_iff.mp (hp.trans_lt hw)
    have hfactor : exp (-(α * I)) * turn p (Cartesian.cis α * z) (Cartesian.cis β * w) *
        exp (β * I) = turn p z w := by
      have hturn : turn p (Cartesian.cis α * z) (Cartesian.cis β * w) =
          exp (α * I) * direction z.toComplex / (exp (β * I) * direction w.toComplex) := by
        rw [turn, if_pos (by rwa [Cartesian.norm_cis_mul]), Cartesian.toComplex_mul,
          Cartesian.toComplex_mul, Cartesian.toComplex_cis, Cartesian.toComplex_cis,
          direction_turned α hz, direction_turned β hw0]
      have hα : exp (α * I) ≠ 0 := exp_ne_zero _
      have hβ : exp (β * I) ≠ 0 := exp_ne_zero _
      have hd : direction w.toComplex ≠ 0 := direction_ne_zero _
      rw [hturn, turn, if_pos hw, exp_neg]
      field_simp
    rw [hfactor]

/-- Where the entries at the peak differ too much in length, the vectors are not near, however the
second one is turned. -/
theorem Peak.not_near (h : Peak zs ws i z w) (hgap : ‖w.toComplex‖ + p < ‖z.toComplex‖) {c : ℂ}
    (hc : ‖c‖ = 1) : ¬ Near p c zs ws := by
  intro hnear
  have hdist : ‖z.toComplex - c * w.toComplex‖ ≤ p := hnear _ h.mem_zip
  have htriangle := norm_sub_norm_le z.toComplex (c * w.toComplex)
  rw [norm_mul, hc, one_mul] at htriangle
  linarith

theorem Peak.near_turned_iff (h : Peak zs ws i z w) (hp : 0 ≤ p)
    (hw : p < ‖w.toComplex‖ ∨ ‖w.toComplex‖ + p < ‖z.toComplex‖) (α β : ℝ) :
    Near p (turn p (Cartesian.cis α * z) (Cartesian.cis β * w))
      (turned α zs) (turned β ws) ↔ Near p (turn p z w) zs ws := by
  rcases hw with hw | hgap
  · exact h.near_turned_long hp hw α β
  · have hgap' : ‖(Cartesian.cis β * w).toComplex‖ + p < ‖(Cartesian.cis α * z).toComplex‖ := by
      rwa [Cartesian.norm_cis_mul, Cartesian.norm_cis_mul]
    exact iff_of_false ((h.both_turned α β).not_near hgap' (norm_turn _ _ _))
      (h.not_near hgap (norm_turn _ _ _))

theorem turn_of_short (hw : ‖w.toComplex‖ ≤ p) : turn p z w = 1 := if_neg (not_lt.mpr hw)

theorem Peak.compare_short (h : Peak zs ws i z w) (hp : 0 ≤ p) (hw : ‖w.toComplex‖ ≤ p) :
    compare true p zs ws = compare false p zs ws := by
  obtain ⟨b, hb⟩ := h.exists_compare hp
  obtain ⟨c, hc⟩ := exists_compare_plain h.length_eq hp
  rw [turn_of_short hw] at hb
  exact compare_congr hb hc Iff.rfl

/-- Vectors that are compared as they are can be turned together. -/
theorem Peak.compare_short_turned (h : Peak zs ws i z w) (hp : 0 ≤ p) (hw : ‖w.toComplex‖ ≤ p)
    (α β : ℝ) : compare true p (turned α zs) (turned β ws) =
      compare true p zs (turned (β - α) ws) := by
  obtain ⟨b, hb⟩ := (h.both_turned α β).exists_compare hp
  obtain ⟨c, hc⟩ := (h.right_turned (β - α)).exists_compare hp
  have hshort (t : ℝ) : ‖(Cartesian.cis t * w).toComplex‖ ≤ p := by rwa [Cartesian.norm_cis_mul]
  rw [turn_of_short (hshort _)] at hb hc
  refine compare_congr hb hc ?_
  have hphase : exp (-(α * I)) * 1 * exp (β * I) = 1 * exp ((β - α : ℝ) * I) := by
    rw [mul_one, one_mul, ← exp_add]
    push_cast
    ring_nf
  rw [near_turned, near_turned_right, hphase]

/-- A vector and its turned copy are near if the copy is turned back, or differs by little. -/
theorem Peak.near_turned_self (h : Peak zs ws i z w) (hp : 0 ≤ p) (φ : ℝ) :
    Near p (turn p z (Cartesian.cis φ * z)) zs (turned φ zs) ↔
      p < ‖z.toComplex‖ ∨ ‖z.toComplex‖ * ‖1 - exp (φ * I)‖ ≤ p := by
  have hterm (y : ℂ) : ‖y - exp (φ * I) * y‖ = ‖y‖ * ‖1 - exp (φ * I)‖ := by
    rw [← norm_mul, show y - exp (φ * I) * y = y * (1 - exp (φ * I)) by ring]
  rw [near_turned_right, near_self]
  by_cases hlong : p < ‖z.toComplex‖
  · have hz : z.toComplex ≠ 0 := norm_pos_iff.mp (hp.trans_lt hlong)
    have hback : turn p z (Cartesian.cis φ * z) * exp (φ * I) = 1 := by
      rw [turn, if_pos (by rwa [Cartesian.norm_cis_mul]), Cartesian.toComplex_mul,
        Cartesian.toComplex_cis, direction_turned φ hz, div_mul_eq_mul_div,
        mul_comm (direction _), div_self (mul_ne_zero (exp_ne_zero _) (direction_ne_zero _))]
    refine iff_of_true (fun y _ => ?_) (Or.inl hlong)
    rw [hback, one_mul, sub_self, norm_zero]
    exact hp
  · have hshort : ‖(Cartesian.cis φ * z).toComplex‖ ≤ p := by
      rw [Cartesian.norm_cis_mul]
      exact not_lt.mp hlong
    rw [turn_of_short hshort, one_mul, or_iff_right hlong]
    simp only [hterm]
    refine ⟨fun hall => hall z (List.mem_of_getElem? h.left_eq), fun hle y hy => ?_⟩
    exact (mul_le_mul_of_nonneg_right (h.norm_le hy) (norm_nonneg _)).trans hle

/-! ## The result -/

/-- **Comparison up to a phase.** Global phases of the vectors do not change the answer if the
second vector is longer than the precision where the first one has its first largest entry, or
shorter than that entry by more than the precision. If it is not longer than the precision there,
the vectors are compared as they are, so that only the difference of the phases counts. A vector and
a turned copy are found equal if the largest entry is longer than the precision, and otherwise if
the turn moves it by no more than the precision. -/
theorem compare_upToPhase {zs ws : List (Cartesian ℝ)} (hl : zs.length = ws.length) (hz : zs ≠ [])
    {p : ℝ} (hp : 0 ≤ p) : ∃ i z w, Peak zs ws i z w ∧
      (p < ‖w.toComplex‖ ∨ ‖w.toComplex‖ + p < ‖z.toComplex‖ →
        ∃ b, compare true p zs ws = .ok b ∧
          ∀ α β, compare true p (turned α zs) (turned β ws) = .ok b) ∧
      (‖w.toComplex‖ ≤ p → ∀ α β,
        compare true p (turned α zs) (turned β ws) =
          compare false p (turned α zs) (turned β ws) ∧
        compare true p (turned α zs) (turned β ws) = compare true p zs (turned (β - α) ws)) ∧
      ∀ φ : ℝ, ∃ b, compare true p zs (turned φ zs) = .ok b ∧
        (b = true ↔ p < ‖z.toComplex‖ ∨ ‖z.toComplex‖ * ‖1 - exp (φ * I)‖ ≤ p) := by
  obtain ⟨i, z, w, h⟩ := exists_peak hl hz
  refine ⟨i, z, w, h, fun hw => ?_, fun hw α β => ?_, fun φ => ?_⟩
  · obtain ⟨b, hb⟩ := h.exists_compare hp
    refine ⟨b, hb.1, fun α β => ?_⟩
    obtain ⟨c, hc⟩ := (h.both_turned α β).exists_compare hp
    rw [← hb.1]
    exact compare_congr hc hb (h.near_turned_iff hp hw α β)
  · exact ⟨(h.both_turned α β).compare_short hp (by rwa [Cartesian.norm_cis_mul]),
      h.compare_short_turned hp hw α β⟩
  · obtain ⟨b, hb, hiff⟩ := (h.self.right_turned φ).exists_compare hp
    exact ⟨b, hb, hiff.trans (h.near_turned_self hp φ)⟩

/-- Vectors whose entries are longer than the precision. -/
theorem compare_upToPhase_long :
    (∃ b, compare true (1 : ℝ) [⟨3, 0⟩, ⟨0, -4⟩] [⟨0, 2⟩, ⟨3, 0⟩] = .ok b ∧
      ∀ α β, compare true 1 (turned α [⟨3, 0⟩, ⟨0, -4⟩]) (turned β [⟨0, 2⟩, ⟨3, 0⟩]) = .ok b) ∧
    ∀ φ, compare true (1 : ℝ) [⟨3, 0⟩, ⟨0, -4⟩] (turned φ [⟨3, 0⟩, ⟨0, -4⟩]) = .ok true := by
  have hlong (x y : ℝ) (h : 1 < x ^ 2 + y ^ 2) : 1 < ‖(⟨x, y⟩ : Cartesian ℝ).toComplex‖ := by
    rw [norm_eq_sqrt_sq_add_sq]
    exact Real.lt_sqrt_of_sq_lt (by simpa [Cartesian.toComplex] using h)
  have hl : ([⟨3, 0⟩, ⟨0, -4⟩] : List (Cartesian ℝ)).length =
      ([⟨0, 2⟩, ⟨3, 0⟩] : List (Cartesian ℝ)).length := rfl
  obtain ⟨i, z, w, h, hphases, -, hself⟩ := compare_upToPhase hl (by simp) zero_le_one
  have hz : 1 < ‖z.toComplex‖ := by
    have hmem := List.mem_of_getElem? h.left_eq
    simp only [List.mem_cons, List.not_mem_nil, or_false] at hmem
    rcases hmem with rfl | rfl
    · exact hlong 3 0 (by norm_num)
    · exact hlong 0 (-4) (by norm_num)
  have hw : 1 < ‖w.toComplex‖ := by
    have hmem := List.mem_of_getElem? h.right_eq
    simp only [List.mem_cons, List.not_mem_nil, or_false] at hmem
    rcases hmem with rfl | rfl
    · exact hlong 0 2 (by norm_num)
    · exact hlong 3 0 (by norm_num)
  refine ⟨hphases (Or.inl hw), fun φ => ?_⟩
  obtain ⟨b, hb, hiff⟩ := hself φ
  rw [hb, hiff.mpr (Or.inl hz)]

/-- With the precision one, a vector of one entry of length one is told apart from its negative, but
not from itself. -/
theorem compare_short_differs :
    compare true (1 : ℝ) (turned 0 [Cartesian.one]) (turned Real.pi [Cartesian.one]) = .ok false ∧
      compare true (1 : ℝ) [Cartesian.one] [Cartesian.one] = .ok true := by
  have hone : ‖(Cartesian.one : Cartesian ℝ).toComplex‖ ≤ 1 := by simp
  have h : Peak [Cartesian.one] [Cartesian.one] 0 Cartesian.one Cartesian.one :=
    ⟨rfl, rfl, rfl, ⟨rfl, by simp, by simp⟩⟩
  obtain ⟨b, hb, hbiff⟩ := (h.right_turned (Real.pi - 0)).exists_compare zero_le_one
  obtain ⟨c, hc, hciff⟩ := h.exists_compare zero_le_one
  constructor
  · rw [h.compare_short_turned zero_le_one hone, hb]
    rw [turn_of_short (by rwa [Cartesian.norm_cis_mul]), near_turned_right, near_self] at hbiff
    have hfar : ¬ b = true := by
      rw [hbiff]
      simp only [List.mem_singleton, forall_eq, Cartesian.toComplex_one, sub_zero, exp_pi_mul_I]
      norm_num
    rw [Bool.not_eq_true] at hfar
    rw [hfar]
  · rw [hc]
    rw [turn_of_short hone, near_self] at hciff
    rw [hciff.mpr (by simp)]

end Statevector

end StateSynthesis
