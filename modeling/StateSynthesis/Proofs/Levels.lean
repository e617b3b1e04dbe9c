import StateSynthesis.Proofs.Merging

/-!
Levels on columns. Magnitudes and phases in separate columns are merged as the amplitudes are that
they make up (`ofColumns_eq`). So one level is exact whatever the signs of the magnitudes are, also
where both magnitudes of a pair vanish, and it keeps the sum of the squares
(`disentangles_ofVector`). Level after level the columns come down to a single pair, of which the
magnitude is the norm of the vector (`descend_eq_norm`). Main statement: `levels_exact`.
-/
namespace StateSynthesis

namespace Bloch

/-! ## Columns -/

section Columns

variable {α : Type} [Scalar α]

omit [Scalar α] in
theorem alternate_cons_cons (x y : α) (xs : List α) :
    alternate (x :: y :: xs) = (x :: (alternate xs).1, y :: (alternate xs).2) := rfl

omit [Scalar α] in
theorem length_alternate (N : Nat) {xs : List α} (h : xs.length = 2 * N) :
    (alternate xs).1.length = N ∧ (alternate xs).2.length = N := by
  induction N generalizing xs with
  | zero =>
    obtain rfl := List.length_eq_zero_iff.mp h
    exact ⟨rfl, rfl⟩
  | succ N ih =>
    match xs, h with
    | x :: y :: xs, h =>
      simp only [List.length_cons] at h
      have hrest : xs.length = 2 * N := by omega
      obtain ⟨hfirst, hsecond⟩ := ih hrest
      rw [alternate_cons_cons]
      exact ⟨congrArg (· + 1) hfirst, congrArg (· + 1) hsecond⟩

/-- A level in columns. -/
def columns (level : List (Bloch α)) : Columns α where
  magnitudes := level.map fun b => b.merged.magnitude
  phases := level.map fun b => b.merged.phase
  phis := level.map phi
  thetas := level.map theta

/-- The pairs of two columns are the pairs of the amplitudes. -/
theorem columns_ofVector (N : Nat) {rs ts : List α} (hr : rs.length = 2 * N)
    (ht : ts.length = 2 * N) : columns (ofVector (List.zipWith Amplitude.mk rs ts)) =
      ⟨List.zipWith magnitude (alternate rs).1 (alternate rs).2,
        List.zipWith phase (alternate ts).1 (alternate ts).2,
        List.zipWith phiOf (alternate ts).1 (alternate ts).2,
        List.zipWith thetaOf (alternate rs).1 (alternate rs).2⟩ := by
  induction N generalizing rs ts with
  | zero =>
    obtain rfl := List.length_eq_zero_iff.mp hr
    obtain rfl := List.length_eq_zero_iff.mp ht
    rfl
  | succ N ih =>
    match rs, ts, hr, ht with
    | r :: r' :: rs, t :: t' :: ts, hr, ht =>
      simp only [List.length_cons] at hr ht
      have hrs : rs.length = 2 * N := by omega
      have hts : ts.length = 2 * N := by omega
      have hrest := ih hrs hts
      simp only [columns, Columns.mk.injEq] at hrest
      obtain ⟨hmagnitudes, hphases, hphis, hthetas⟩ := hrest
      simp only [columns, ofVector, ofPair, List.zipWith_cons_cons, List.map_cons,
        alternate_cons_cons, hmagnitudes, hphases, hphis, hthetas]

/-- A level on columns is the level on the amplitudes that they make up. -/
theorem ofColumns_eq {N : Nat} {rs ts : List α} (hr : rs.length = 2 * N) (ht : ts.length = 2 * N) :
    ofColumns rs ts = .ok (columns (ofVector (List.zipWith Amplitude.mk rs ts))) := by
  obtain ⟨hr₀, hr₁⟩ := length_alternate N hr
  obtain ⟨ht₀, ht₁⟩ := length_alternate N ht
  have hrs := hr₀.trans hr₁.symm
  have hts := ht₀.trans ht₁.symm
  simp only [ofColumns, Angles.combine_of_length_eq _ _ _ hrs,
    Angles.combine_of_length_eq _ _ _ hts, columns_ofVector N hr ht]
  rfl

/-- So the columns of a vector of amplitudes are merged as the synthesis merges the vector. -/
theorem ofColumns_amplitudes {N : Nat} {as : List (Amplitude α)} (h : as.length = 2 * N) :
    ofColumns (as.map Amplitude.magnitude) (as.map Amplitude.phase) =
      .ok (columns (ofVector as)) := by
  have hzip : List.zipWith Amplitude.mk (as.map Amplitude.magnitude) (as.map Amplitude.phase) =
      as := by
    rw [List.zipWith_map, List.zipWith_self]
    exact List.map_id as
  rw [ofColumns_eq (by simpa using h) (by simpa using h), hzip]

/-- The magnitudes and phases that are left after a number of levels. -/
def descend : Nat → List α → List α → Except (Fault α) (List α × List α)
  | 0, rs, ts => .ok (rs, ts)
  | k + 1, rs, ts => do
    let c ← ofColumns rs ts
    descend k c.magnitudes c.phases

end Columns

/-! ## One level -/

/-- The columns `c` of length `N` disentangle the magnitudes `rs` and the phases `ts`: each pair of
entries is its merged entry times the column of the two rotations, and the merged magnitudes are
not negative and keep the sum of the squares. -/
structure Columns.Disentangles (c : Columns ℝ) (N : ℕ) (rs ts : List ℝ) : Prop where
  magnitudes_length : c.magnitudes.length = N
  phases_length : c.phases.length = N
  phis_length : c.phis.length = N
  thetas_length : c.thetas.length = N
  zero_entry : ∀ j < N, rs.getD (2 * j) 0 * Complex.exp (ts.getD (2 * j) 0 * Complex.I) =
    c.magnitudes.getD j 0 * Complex.exp (c.phases.getD j 0 * Complex.I) *
      Complex.exp (-(c.phis.getD j 0 / 2) * Complex.I) * Real.cos (c.thetas.getD j 0 / 2)
  one_entry : ∀ j < N,
    rs.getD (2 * j + 1) 0 * Complex.exp (ts.getD (2 * j + 1) 0 * Complex.I) =
      c.magnitudes.getD j 0 * Complex.exp (c.phases.getD j 0 * Complex.I) *
        Complex.exp (c.phis.getD j 0 / 2 * Complex.I) * Real.sin (c.thetas.getD j 0 / 2)
  nonneg : ∀ r ∈ c.magnitudes, 0 ≤ r
  sum_sq : ∑ j ∈ Finset.range N, c.magnitudes.getD j 0 ^ 2 =
    ∑ i ∈ Finset.range (2 * N), rs.getD i 0 ^ 2

theorem getD_zipWith_mk {rs ts : List ℝ} (h : rs.length = ts.length) (i : ℕ) :
    (List.zipWith Amplitude.mk rs ts).getD i Amplitude.zero = ⟨rs.getD i 0, ts.getD i 0⟩ := by
  rcases Nat.lt_or_ge i rs.length with hi | hi
  · rw [List.getD_eq_getElem _ _ (by simpa [← h] using hi), List.getElem_zipWith,
      List.getD_eq_getElem _ _ hi, List.getD_eq_getElem _ _ (h ▸ hi)]
  · rw [List.getD_eq_default _ _ (by simp [hi]), List.getD_eq_default _ _ hi,
      List.getD_eq_default _ _ (h ▸ hi)]
    simp [Amplitude.zero]

theorem disentangles_ofVector {N : ℕ} {rs ts : List ℝ} (hr : rs.length = 2 * N)
    (ht : ts.length = 2 * N) :
    (columns (ofVector (List.zipWith Amplitude.mk rs ts))).Disentangles N rs ts := by
  have hrt : rs.length = ts.length := hr.trans ht.symm
  set as := List.zipWith Amplitude.mk rs ts with has
  have hl : as.length = 2 * N := by simp [has, hr, ht]
  have hlevel : (ofVector as).length = N := by
    rw [length_ofVector]
    omega
  have hpair (j : ℕ) := toComplex_ofPair (as.getD (2 * j) Amplitude.zero)
    (as.getD (2 * j + 1) Amplitude.zero)
  have hentry (i : ℕ) : as.getD i Amplitude.zero = ⟨rs.getD i 0, ts.getD i 0⟩ :=
    getD_zipWith_mk hrt i
  have hread {β : Type} (f : Bloch ℝ → β) (d : β) {j : ℕ} (hj : j < N) :=
    getD_map_ofVector f d hl hj
  have hsq (bs : List (Amplitude ℝ)) (i : ℕ) :
      ‖Amplitude.entry bs i‖ ^ 2 = (bs.getD i Amplitude.zero).magnitude ^ 2 := by
    rw [Amplitude.entry, Amplitude.norm_toComplex, sq_abs]
  constructor
  case magnitudes_length | phases_length | phis_length | thetas_length => simp [columns, hlevel]
  case zero_entry =>
    intro j hj
    simp only [columns, hread _ _ hj]
    have h := (hpair j).1
    rw [column_false] at h
    simp only [hentry, Amplitude.toComplex] at h ⊢
    rw [h]
    push_cast
    ring
  case one_entry =>
    intro j hj
    simp only [columns, hread _ _ hj]
    have h := (hpair j).2
    rw [column_true] at h
    simp only [hentry, Amplitude.toComplex] at h ⊢
    rw [h]
    push_cast
    ring
  case nonneg =>
    intro r hr
    obtain ⟨b, hb, rfl⟩ := List.mem_map.mp hr
    exact merged_nonneg as _ (List.mem_map_of_mem hb)
  case sum_sq =>
    have hnorm := congrArg (· ^ 2) (norm₂_entry_ofVector hl)
    simp only [sq_norm₂, hsq, hentry] at hnorm
    rw [hnorm]
    refine Finset.sum_congr rfl fun j hj => ?_
    have hj := Finset.mem_range.mp hj
    simp only [columns, hread _ _ hj]

/-! ## All levels -/

/-- The norm of the vector is what is left of the magnitudes. Without a level they are left as they
are, so then they must not be negative. -/
theorem descend_eq_norm (k : ℕ) {rs ts : List ℝ} (hr : rs.length = 2 ^ k) (ht : ts.length = 2 ^ k)
    (h₀ : k = 0 → ∀ r ∈ rs, 0 ≤ r) :
    ∃ t, descend k rs ts = .ok ([√(∑ i ∈ Finset.range (2 ^ k), rs.getD i 0 ^ 2)], [t]) := by
  induction k generalizing rs ts with
  | zero =>
    obtain ⟨r, rfl⟩ := List.length_eq_one_iff.mp hr
    obtain ⟨t, rfl⟩ := List.length_eq_one_iff.mp ht
    have hsqrt : √(∑ i ∈ Finset.range (2 ^ 0), [r].getD i 0 ^ 2) = r := by
      rw [pow_zero, Finset.sum_range_one]
      exact Real.sqrt_sq (h₀ rfl r (List.mem_singleton_self r))
    exact ⟨t, by rw [hsqrt, descend]⟩
  | succ k ih =>
    rw [pow_succ, mul_comm] at hr ht
    have hlevel := disentangles_ofVector hr ht
    obtain ⟨t, hrest⟩ := ih hlevel.magnitudes_length hlevel.phases_length fun _ => hlevel.nonneg
    refine ⟨t, ?_⟩
    rw [pow_succ, mul_comm, ← hlevel.sum_sq, descend, ofColumns_eq hr ht]
    exact hrest

end Bloch

/-! ## The result -/

/-- **Exact levels.** Whatever the magnitudes and phases are, in columns of length `2 ^ (k + 1)`, a
level makes four columns of length `2 ^ k` of them that disentangle them, and after `k + 1` levels
there is one pair left, of which the magnitude is the norm of the vector. The synthesis takes the
same levels. -/
theorem levels_exact {k : ℕ} {rs ts : List ℝ} (hr : rs.length = 2 ^ (k + 1))
    (ht : ts.length = 2 ^ (k + 1)) :
    (∃ c, Bloch.ofColumns rs ts = .ok c ∧ c.Disentangles (2 ^ k) rs ts) ∧
    (∃ t, Bloch.descend (k + 1) rs ts =
      .ok ([√(∑ i ∈ Finset.range (2 ^ (k + 1)), rs.getD i 0 ^ 2)], [t])) ∧
    ∀ as : List (Amplitude ℝ), as.map Amplitude.magnitude = rs → as.map Amplitude.phase = ts →
      Bloch.ofColumns rs ts = .ok (Bloch.columns (Bloch.ofVector as)) := by
  refine ⟨?_, Bloch.descend_eq_norm (k + 1) hr ht fun h => absurd h (Nat.succ_ne_zero k), ?_⟩
  · rw [pow_succ, mul_comm] at hr ht
    exact ⟨_, Bloch.ofColumns_eq hr ht, Bloch.disentangles_ofVector hr ht⟩
  · rintro as rfl rfl
    rw [List.length_map, pow_succ, mul_comm] at hr
    exact Bloch.ofColumns_amplitudes hr

/-- A vanishing pair beside a pair of a negative and a positive magnitude. -/
theorem levels_exact_signs :
    (∃ c, Bloch.ofColumns [0, 0, -3, 4] [1, 2, 3, 4] = .ok c ∧
      c.Disentangles 2 [0, 0, -3, 4] [1, 2, 3, 4]) ∧
    ∃ t, Bloch.descend 2 [0, 0, -3, 4] [(1 : ℝ), 2, 3, 4] = .ok ([5], [t]) := by
  have hnorm : √(∑ i ∈ Finset.range (2 ^ 2), ([0, 0, -3, 4] : List ℝ).getD i 0 ^ 2) = 5 := by
    have hsum : ∑ i ∈ Finset.range (2 ^ 2), ([0, 0, -3, 4] : List ℝ).getD i 0 ^ 2 = 5 ^ 2 := by
      norm_num [Finset.sum_range_succ]
    rw [hsum]
    exact Real.sqrt_sq (by norm_num)
  obtain ⟨hlevel, hall, -⟩ := @levels_exact 1 [0, 0, -3, 4] [1, 2, 3, 4] rfl rfl
  rw [hnorm] at hall
  exact ⟨hlevel, hall⟩

end StateSynthesis
