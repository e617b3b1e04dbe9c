import StateSynthesis.Proofs.Multiplexing
import StateSynthesis.Proofs.Pruning

/-!
The transform behind a multiplexer about `z`. Its rotations turn by the Walsh coefficients of the
angles (`walsh`), in the order of their numbers, without those within the tolerance; between them
stand flips of the target, and a control has flipped the target an odd number of times in front of
a rotation if its bit is one in the number of the rotation. One more control, most significant,
lists the coefficients of the sum in front of those of the difference (`NaturalOrder.append`).
Main statement: `aboutZ_naturalOrder`.
-/
namespace StateSynthesis

/-! ## Bits -/

/-- The number of bits that are one. -/
def popcount (n : ℕ) : ℕ := n.bitIndices.length

@[simp] theorem popcount_zero : popcount 0 = 0 := rfl

theorem testBit_two_pow_add {k n : ℕ} (h : n < 2 ^ k) (i : ℕ) :
    (2 ^ k + n).testBit i = (decide (i = k) || n.testBit i) := by
  rcases lt_trichotomy i k with hi | rfl | hi
  · rw [Nat.testBit_two_pow_add_gt hi]
    simp [hi.ne]
  · rw [Nat.testBit_two_pow_add_eq, Nat.testBit_lt_two_pow h]
    simp
  · have hlow : n < 2 ^ i := h.trans (Nat.pow_lt_pow_right one_lt_two hi)
    have hhigh : 2 ^ k + n < 2 ^ i := by
      have hle : 2 ^ (k + 1) ≤ 2 ^ i := Nat.pow_le_pow_right two_pos hi
      rw [Nat.pow_succ] at hle
      omega
    rw [Nat.testBit_lt_two_pow hlow, Nat.testBit_lt_two_pow hhigh]
    simp [hi.ne']

theorem popcount_two_pow_add {k n : ℕ} (h : n < 2 ^ k) :
    popcount (2 ^ k + n) = popcount n + 1 := by
  have hk : k ∉ n.bitIndices := by
    rw [Nat.mem_bitIndices, Nat.testBit_lt_two_pow h]
    exact Bool.false_ne_true
  have hperm : (2 ^ k + n).bitIndices.Perm (k :: n.bitIndices) := by
    rw [List.perm_ext_iff_of_nodup Nat.bitIndices_nodup
      (List.nodup_cons.mpr ⟨hk, Nat.bitIndices_nodup⟩)]
    intro i
    rw [List.mem_cons, Nat.mem_bitIndices, Nat.mem_bitIndices, testBit_two_pow_add h]
    simp
  exact hperm.length_eq

section

variable {k p j : ℕ} (hp : p < 2 ^ k) (hj : j < 2 ^ k)

include hp hj

theorem two_pow_add_and : (2 ^ k + p) &&& j = p &&& j := by
  refine Nat.eq_of_testBit_eq fun i => ?_
  rw [Nat.testBit_and, Nat.testBit_and, testBit_two_pow_add hp]
  by_cases hi : i = k
  · rw [hi, Nat.testBit_lt_two_pow hj, Bool.and_false, Bool.and_false]
  · simp [hi]

theorem two_pow_add_and_two_pow_add : (2 ^ k + p) &&& (2 ^ k + j) = 2 ^ k + (p &&& j) := by
  refine Nat.eq_of_testBit_eq fun i => ?_
  rw [Nat.testBit_and, testBit_two_pow_add hp, testBit_two_pow_add hj,
    testBit_two_pow_add (Nat.and_le_left.trans_lt hp), Nat.testBit_and]
  cases decide (i = k) <;> simp

end

/-! ## Coefficients -/

namespace Angles

/-- The Walsh coefficient of number `p` of `2 ^ k` angles. -/
noncomputable def walsh (k : ℕ) (angles : List ℝ) (p : ℕ) : ℝ :=
  (∑ j ∈ Finset.range (2 ^ k), (-1) ^ popcount (p &&& j) * angles.getD j 0) / (2 ^ k : ℕ)

theorem walsh_zero (angles : List ℝ) : walsh 0 angles 0 = angles.headD 0 := by
  cases angles <;> simp [walsh]

variable {angles : List ℝ} {k p : ℕ} (h : angles.length = 2 ^ k + 2 ^ k) (hp : p < 2 ^ k)

include h hp

theorem walsh_low : walsh (k + 1) angles p = walsh k (even angles) p := by
  have hterm (j : ℕ) (hj : j ∈ Finset.range (2 ^ k)) :
      (-1) ^ popcount (p &&& j) * (even angles).getD j 0 =
        ((-1) ^ popcount (p &&& j) * angles.getD j 0 +
          (-1) ^ popcount (p &&& (2 ^ k + j)) * angles.getD (2 ^ k + j) 0) / 2 := by
    rw [Finset.mem_range] at hj
    rw [getD_even h hj, Nat.and_comm p (2 ^ k + j), two_pow_add_and hj hp, Nat.and_comm j p]
    ring
  rw [walsh, walsh, Finset.sum_congr rfl hterm, ← Finset.sum_div, Finset.sum_add_distrib,
    Nat.pow_succ, Nat.mul_two, Finset.sum_range_add]
  push_cast
  ring

theorem walsh_high : walsh (k + 1) angles (2 ^ k + p) = walsh k (odd angles) p := by
  have hterm (j : ℕ) (hj : j ∈ Finset.range (2 ^ k)) :
      (-1) ^ popcount (p &&& j) * (odd angles).getD j 0 =
        ((-1) ^ popcount ((2 ^ k + p) &&& j) * angles.getD j 0 +
          (-1) ^ popcount ((2 ^ k + p) &&& (2 ^ k + j)) * angles.getD (2 ^ k + j) 0) / 2 := by
    rw [Finset.mem_range] at hj
    rw [getD_odd h hj, two_pow_add_and hp hj, two_pow_add_and_two_pow_add hp hj,
      popcount_two_pow_add (Nat.and_le_left.trans_lt hp)]
    ring
  rw [walsh, walsh, Finset.sum_congr rfl hterm, ← Finset.sum_div, Finset.sum_add_distrib,
    Nat.pow_succ, Nat.mul_two, Finset.sum_range_add]
  push_cast
  ring

end Angles

/-! ## Rotations and flips of a sequence -/

namespace Sequence

def rotations (gs : List (Gate ℝ)) : List (Gate ℝ) := gs.filter (·.kind == .rz)

/-- The number of flips under the control `c` alone. -/
def flips (c : Qubit) (gs : List (Gate ℝ)) : ℕ :=
  gs.countP fun g => g.kind == .x && g.controls == [c]

/-- Rotations of the target by those of the first `n` angles that are outside of the tolerance. -/
noncomputable def turns (τ : ℝ) (target : Qubit) (w : ℕ → ℝ) (n : ℕ) : List (Gate ℝ) :=
  ((List.range n).filter fun p => Tolerance.exceeds τ (w p)).map fun p => Gate.rz (w p) target

theorem flips_append (c : Qubit) (gs hs : List (Gate ℝ)) :
    flips c (gs ++ hs) = flips c gs + flips c hs := List.countP_append

theorem rotations_append (gs hs : List (Gate ℝ)) :
    rotations (gs ++ hs) = rotations gs ++ rotations hs := List.filter_append ..

theorem turns_congr {τ : ℝ} {target : Qubit} {w u : ℕ → ℝ} {n : ℕ} (h : ∀ p < n, w p = u p) :
    turns τ target w n = turns τ target u n := by
  have hfilter : ((List.range n).filter fun p => Tolerance.exceeds τ (w p)) =
      (List.range n).filter fun p => Tolerance.exceeds τ (u p) :=
    List.filter_congr fun p hp => by rw [h p (List.mem_range.mp hp)]
  rw [turns, turns, hfilter]
  refine List.map_congr_left fun p hp => ?_
  rw [h p (List.mem_range.mp (List.mem_filter.mp hp).1)]

theorem turns_add (τ : ℝ) (target : Qubit) (w : ℕ → ℝ) (m n : ℕ) :
    turns τ target w (m + n) =
      turns τ target w m ++ turns τ target (fun p => w (m + p)) n := by
  simp only [turns, List.range_add, List.filter_append, List.map_append, List.filter_map,
    List.map_map]
  rfl

/-- A gate of two sequences is one of the first or one of the second. -/
theorem split_append {gs hs gs₁ gs₂ : List (Gate ℝ)} {g : Gate ℝ}
    (h : gs ++ hs = gs₁ ++ g :: gs₂) :
    (∃ rest, gs = gs₁ ++ g :: rest) ∨ ∃ hs₁, gs₁ = gs ++ hs₁ ∧ hs = hs₁ ++ g :: gs₂ := by
  rcases List.append_eq_append_iff.mp h with ⟨hs₁, hfirst, hsecond⟩ | ⟨rest, hfirst, hsecond⟩
  · exact Or.inr ⟨hs₁, hfirst, hsecond⟩
  · rcases List.cons_eq_append_iff.mp hsecond with ⟨rfl, hsecond⟩ | ⟨rest, rfl, -⟩
    · exact Or.inr ⟨[], by simpa using hfirst.symm, hsecond.symm⟩
    · exact Or.inl ⟨rest, hfirst⟩

/-- Flips around a sequence are one flip at either end, or nothing at all. -/
theorem conjugated_flip (target c : Qubit) (gs : List (Gate ℝ)) :
    conjugated [Gate.x target [c]] gs =
      if gs.isEmpty then [] else Gate.x target [c] :: (gs ++ [Gate.x target [c]]) := rfl

theorem rotations_conjugated_flip (target c : Qubit) (gs : List (Gate ℝ)) :
    rotations (conjugated [Gate.x target [c]] gs) = rotations gs := by
  rw [conjugated_flip]
  cases gs with
  | nil => rfl
  | cons g gs => simp [rotations, List.filter_cons, Gate.x]

theorem mem_conjugated_flip {target c : Qubit} {gs : List (Gate ℝ)} {g : Gate ℝ}
    (h : g ∈ conjugated [Gate.x target [c]] gs) : g ∈ gs ∨ g = Gate.x target [c] := by
  rw [conjugated_flip] at h
  split at h
  · cases h
  · simp only [List.mem_cons, List.mem_append, List.not_mem_nil, or_false] at h
    tauto

theorem flips_cons_flip (target c d : Qubit) (gs : List (Gate ℝ)) :
    flips d (Gate.x target [c] :: gs) = (if c = d then 1 else 0) + flips d gs := by
  simp [flips, List.countP_cons, Gate.x, Nat.add_comm]

theorem even_flips_conjugated_flip (target c d : Qubit) {gs : List (Gate ℝ)}
    (h : Even (flips d gs)) : Even (flips d (conjugated [Gate.x target [c]] gs)) := by
  rw [conjugated_flip]
  split
  · exact Even.zero
  · rw [flips_cons_flip, flips_append, flips_cons_flip, Nat.add_comm, Nat.add_assoc]
    exact h.add (Even.add_self _)

/-- A rotation between the flips is one of the sequence, behind the first flip. -/
theorem split_conjugated_flip {target c : Qubit} {gs gs₁ gs₂ : List (Gate ℝ)} {g : Gate ℝ}
    (h : conjugated [Gate.x target [c]] gs = gs₁ ++ g :: gs₂) (hg : g.kind = .rz) :
    ∃ hs₁ hs₂, gs₁ = Gate.x target [c] :: hs₁ ∧ gs = hs₁ ++ g :: hs₂ := by
  have hflip {ks₁ ks₂ : List (Gate ℝ)} : [Gate.x target [c]] ≠ ks₁ ++ g :: ks₂ := fun e => by
    have hm : g ∈ [Gate.x target [c]] := e ▸ List.mem_append_right _ (List.mem_cons_self ..)
    rw [List.mem_singleton.mp hm] at hg
    cases hg
  have hne : gs ≠ [] := fun e => by simp [e, conjugated_flip] at h
  have hempty : gs.isEmpty = false := by simpa using hne
  rw [conjugated_flip, hempty] at h
  have hsplit : [Gate.x target [c]] ++ (gs ++ [Gate.x target [c]]) = gs₁ ++ g :: gs₂ := h
  rcases split_append hsplit with ⟨_, hfirst⟩ | ⟨hs₁, rfl, hrest⟩
  · exact absurd hfirst hflip
  · rcases split_append hrest with ⟨hs₂, hgs⟩ | ⟨_, -, hlast⟩
    · exact ⟨hs₁, hs₂, rfl, hgs⟩
    · exact absurd hlast hflip

end Sequence

/-! ## Natural order -/

open Sequence

/-- The sequence rotates the target by `w p` for every number `p` of as many bits as there are
controls, in the order of the numbers, where `w p` is outside of the tolerance, and flips the target
in between. -/
structure NaturalOrder (τ : ℝ) (target : Qubit) (controls : List Qubit) (w : ℕ → ℝ)
    (gs : List (Gate ℝ)) : Prop where
  rotations_eq : rotations gs = turns τ target w (2 ^ controls.length)
  /-- In front of the rotation of number `p` are the rotations of smaller numbers, and an odd number
  of flips under each control whose bit in `p` is one, an even number under any other. -/
  before : ∀ gs₁ g gs₂, gs = gs₁ ++ g :: gs₂ → g.kind = .rz →
    ∃ p < 2 ^ controls.length, τ < |w p| ∧ g = Gate.rz (w p) target ∧
      rotations gs₁ = turns τ target w p ∧
      ∀ (i : ℕ) (h : i < controls.length), Odd (flips controls[i] gs₁) ↔ p.testBit i = true
  others : ∀ g ∈ gs, g.kind = .rz ∨ ∃ c ∈ controls, g = Gate.x target [c]
  flips_even : ∀ c ∈ controls, Even (flips c gs)

namespace NaturalOrder

variable {τ : ℝ} {target : Qubit} {controls : List Qubit} {u v w : ℕ → ℝ} {gs hs : List (Gate ℝ)}

/-- A qubit that is no control flips nothing. -/
theorem flips_eq_zero (h : NaturalOrder τ target controls w gs) {c : Qubit} (hc : c ∉ controls)
    {gs₁ : List (Gate ℝ)} (hsub : ∀ g ∈ gs₁, g ∈ gs) : flips c gs₁ = 0 := by
  refine List.countP_eq_zero.mpr fun g hg => ?_
  rcases h.others g (hsub g hg) with hk | ⟨d, hd, rfl⟩
  · simp [hk]
  · have hne : d ≠ c := fun e => hc (e ▸ hd)
    simpa [Gate.x] using hne

theorem odd_flips_low (h : NaturalOrder τ target controls w gs) {c : Qubit} (hc : c ∉ controls)
    {gs₁ : List (Gate ℝ)} (hsub : ∀ g ∈ gs₁, g ∈ gs) {p : ℕ} (hp : p < 2 ^ controls.length)
    (hbits : ∀ (i : ℕ) (h : i < controls.length),
      Odd (flips controls[i] gs₁) ↔ p.testBit i = true)
    (i : ℕ) (hi : i < (controls ++ [c]).length) :
    Odd (flips (controls ++ [c])[i] gs₁) ↔ p.testBit i = true := by
  rcases Nat.lt_or_ge i controls.length with hlt | hge
  · rw [List.getElem_append_left hlt]
    exact hbits i hlt
  · obtain rfl : i = controls.length := by
      rw [List.length_append, List.length_singleton] at hi
      omega
    rw [List.getElem_concat_length rfl, h.flips_eq_zero hc hsub, Nat.testBit_lt_two_pow hp]
    simp

/-- Behind the first flip under `c` its bit is one; the others have the bits as within the
sequence. -/
theorem odd_flips_high (hg : NaturalOrder τ target controls u gs)
    (hh : NaturalOrder τ target controls v hs) {c : Qubit} (hc : c ∉ controls)
    {hs₁ : List (Gate ℝ)} (hsub : ∀ g ∈ hs₁, g ∈ hs) {p : ℕ} (hp : p < 2 ^ controls.length)
    (hbits : ∀ (i : ℕ) (h : i < controls.length),
      Odd (flips controls[i] hs₁) ↔ p.testBit i = true)
    (i : ℕ) (hi : i < (controls ++ [c]).length) :
    Odd (flips (controls ++ [c])[i] (gs ++ Gate.x target [c] :: hs₁)) ↔
      (2 ^ controls.length + p).testBit i = true := by
  rw [flips_append, flips_cons_flip, testBit_two_pow_add hp]
  rcases Nat.lt_or_ge i controls.length with hlt | hge
  · have hd := List.getElem_mem hlt
    have hne : c ≠ controls[i] := fun e => hc (e ▸ hd)
    rw [List.getElem_append_left hlt, if_neg hne, Nat.zero_add, Nat.odd_add', hbits i hlt]
    simp [hg.flips_even _ hd, hlt.ne]
  · obtain rfl : i = controls.length := by
      rw [List.length_append, List.length_singleton] at hi
      omega
    rw [List.getElem_concat_length rfl, hg.flips_eq_zero hc fun _ hm => hm,
      hh.flips_eq_zero hc hsub]
    simp

/-- One control more: the numbers with its bit zero come first, those with its bit one behind them,
between two flips under it. -/
theorem append (hg : NaturalOrder τ target controls u gs) (hh : NaturalOrder τ target controls v hs)
    {c : Qubit} (hc : c ∉ controls) (hlow : ∀ p < 2 ^ controls.length, w p = u p)
    (hhigh : ∀ p < 2 ^ controls.length, w (2 ^ controls.length + p) = v p) :
    NaturalOrder τ target (controls ++ [c]) w
      (gs ++ conjugated [Gate.x target [c]] hs) := by
  have htwo : 2 ^ (controls ++ [c]).length = 2 ^ controls.length + 2 ^ controls.length := by
    rw [List.length_append, List.length_singleton, Nat.pow_succ, Nat.mul_two]
  have hturns {p : ℕ} (hp : p ≤ 2 ^ controls.length) : turns τ target w p = turns τ target u p :=
    turns_congr fun r hr => hlow r (hr.trans_le hp)
  have hturns' {p : ℕ} (hp : p ≤ 2 ^ controls.length) :
      turns τ target w (2 ^ controls.length + p) =
        turns τ target u (2 ^ controls.length) ++ turns τ target v p := by
    rw [turns_add, hturns le_rfl]
    congr 1
    exact turns_congr fun r hr => hhigh r (hr.trans_le hp)
  constructor
  case rotations_eq =>
    rw [rotations_append, rotations_conjugated_flip, hg.rotations_eq, hh.rotations_eq, htwo,
      hturns' le_rfl]
  case before =>
    intro gs₁ g gs₂ hsplit hk
    rcases split_append hsplit with ⟨rest, hfirst⟩ | ⟨ks₁, rfl, hsecond⟩
    · obtain ⟨p, hp, hw, rfl, hrot, hbits⟩ := hg.before gs₁ g rest hfirst hk
      have hsub : ∀ g ∈ gs₁, g ∈ gs := fun g hm => by simp [hfirst, hm]
      exact ⟨p, by omega, by rwa [hlow p hp], by rw [hlow p hp], by rw [hrot, hturns hp.le],
        hg.odd_flips_low hc hsub hp hbits⟩
    · obtain ⟨hs₁, hs₂, rfl, hsplit'⟩ := split_conjugated_flip hsecond hk
      obtain ⟨p, hp, hw, rfl, hrot, hbits⟩ := hh.before hs₁ g hs₂ hsplit' hk
      have hsub : ∀ g ∈ hs₁, g ∈ hs := fun g hm => by simp [hsplit', hm]
      refine ⟨2 ^ controls.length + p, by omega, by rwa [hhigh p hp], by rw [hhigh p hp], ?_,
        hg.odd_flips_high hh hc hsub hp hbits⟩
      rw [hturns' hp.le, rotations_append, hg.rotations_eq, ← hrot]
      rfl
  case others =>
    intro g hm
    rcases List.mem_append.mp hm with hm | hm
    · exact (hg.others g hm).imp_right fun ⟨d, hd, e⟩ => ⟨d, List.mem_append_left _ hd, e⟩
    · rcases mem_conjugated_flip hm with hm | rfl
      · exact (hh.others g hm).imp_right fun ⟨d, hd, e⟩ => ⟨d, List.mem_append_left _ hd, e⟩
      · exact Or.inr ⟨c, by simp, rfl⟩
  case flips_even =>
    intro d hd
    rw [flips_append]
    rcases List.mem_append.mp hd with hd | hd
    · exact (hg.flips_even d hd).add (even_flips_conjugated_flip _ _ _ (hh.flips_even d hd))
    · obtain rfl := List.mem_singleton.mp hd
      rw [hg.flips_eq_zero hc fun _ hm => hm, Nat.zero_add]
      refine even_flips_conjugated_flip _ _ _ ?_
      rw [hh.flips_eq_zero hc fun _ hm => hm]
      exact Even.zero

end NaturalOrder

namespace Multiplexer

theorem leaf_naturalOrder (τ : ℝ) (target : Qubit) (angles : List ℝ) :
    NaturalOrder τ target [] (Angles.walsh 0 angles) (leaf τ (Gate.rz · target) angles) := by
  have hturns : turns τ target (Angles.walsh 0 angles) 1 =
      leaf τ (Gate.rz · target) angles := by
    simp only [turns, leaf, List.range_one, List.filter_cons, List.filter_nil, Angles.walsh_zero,
      zero_real]
    split
    · rw [List.map_singleton, Angles.walsh_zero]
    · rfl
  constructor
  case rotations_eq =>
    rw [List.length_nil, pow_zero, hturns, leaf]
    split <;> rfl
  case before =>
    intro gs₁ g gs₂ hsplit hk
    rw [leaf] at hsplit
    split at hsplit
    · rename_i hx
      rw [Tolerance.exceeds_real, zero_real, ← Angles.walsh_zero] at hx
      rcases List.cons_eq_append_iff.mp hsplit with ⟨rfl, hg⟩ | ⟨_, rfl, hg⟩
      · refine ⟨0, by simp, hx, ?_, rfl, by simp⟩
        rw [Angles.walsh_zero, ← zero_real, (List.cons.inj hg).1]
      · simp at hg
    · simp at hsplit
  case others =>
    intro g hm
    rw [leaf] at hm
    split at hm
    · exact Or.inl (by rw [List.mem_singleton.mp hm]; rfl)
    · cases hm
  case flips_even => simp

/-- The difference may be gone into in any case, since nothing comes of what is skipped. -/
theorem aboutZ_cons {τ : ℝ} (hτ : 0 ≤ τ) (target c : Qubit) (cs : List Qubit) (angles : List ℝ) :
    aboutZ τ target (c :: cs) angles = aboutZ τ target cs (Angles.even angles) ++
      conjugated [Gate.x target [c]] (aboutZ τ target cs (Angles.odd angles)) := by
  have hunpruned := Tests.aboutZ_eq hτ ⟨false, false, false, false⟩ target
  rw [← hunpruned (c :: cs), ← hunpruned cs, ← hunpruned cs]
  rfl

/-- The controls one by one, from the least significant one on. -/
theorem naturalOrder_reverse {τ : ℝ} (hτ : 0 ≤ τ) (target : Qubit) {cs : List Qubit}
    (hn : cs.Nodup) {angles : List ℝ} (h : angles.length = 2 ^ cs.length) :
    NaturalOrder τ target cs.reverse (Angles.walsh cs.length angles)
      (aboutZ τ target cs angles) := by
  induction cs generalizing angles with
  | nil => exact leaf_naturalOrder τ target angles
  | cons c cs ih =>
    obtain ⟨hc, hn⟩ := List.nodup_cons.mp hn
    have hl : angles.length = 2 ^ cs.length + 2 ^ cs.length := by
      rw [h, List.length_cons, Nat.pow_succ, Nat.mul_two]
    have hk : cs.reverse.length = cs.length := List.length_reverse
    rw [aboutZ_cons hτ, List.reverse_cons]
    refine (ih hn (Angles.length_even hl)).append (ih hn (Angles.length_odd hl))
      (by simpa using hc) ?_ ?_ <;> rw [hk] <;> intro p hp
    · exact Angles.walsh_low hl hp
    · exact Angles.walsh_high hl hp

end Multiplexer

/-! ## The result -/

/-- **Natural order.** A multiplexer about `z` rotates the target by the Walsh coefficients of its
angles that are outside of the tolerance, in the order of their numbers. In front of a rotation each
control has flipped the target an odd number of times if its bit is one in the number of the
rotation, and an even number of times otherwise, as it has in the end. Nothing else is emitted. -/
theorem aboutZ_naturalOrder {τ : ℝ} (hτ : 0 ≤ τ) (target : Qubit) {controls : List Qubit}
    (hn : controls.Nodup) {angles : List ℝ} (h : angles.length = 2 ^ controls.length) :
    NaturalOrder τ target controls (Angles.walsh controls.length angles)
      (Multiplexer.aboutZ τ target controls.reverse angles) := by
  have horder := Multiplexer.naturalOrder_reverse hτ target (List.nodup_reverse.mpr hn)
    (h.trans (by rw [List.length_reverse]))
  rwa [List.reverse_reverse, List.length_reverse] at horder

/-- Of the four coefficients the last one, a fourth, is left out, with its flips. -/
theorem aboutZ_naturalOrder_quadruple :
    NaturalOrder (1 / 2) ⟨2, "t"⟩ [⟨0, "a"⟩, ⟨1, "b"⟩] (Angles.walsh 2 [1, 2, 3, 5])
      (Multiplexer.aboutZ (1 / 2) ⟨2, "t"⟩ [⟨1, "b"⟩, ⟨0, "a"⟩] [1, 2, 3, 5]) := by
  have hn : [(⟨0, "a"⟩ : Qubit), ⟨1, "b"⟩].Nodup := by decide
  exact aboutZ_naturalOrder (by norm_num) ⟨2, "t"⟩ hn rfl

end StateSynthesis
