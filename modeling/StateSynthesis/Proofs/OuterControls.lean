import StateSynthesis.Proofs.Multiplexing

/-!
Outer controls of a multiplexed rotation. They double the angles by a half of zeros, so that the sum
has half of every angle and the difference minus half of it. Both halves are pruned on their own,
but alike: what is realised of a scaled vector at a scaled tolerance is what is realised of the
vector, scaled (`realised_map_mul`). So the halves cancel where an outer control is zero, and add up
to what twice the tolerance leaves of the given angles where all of them are one
(`act_underOuter`). Main statement: `outerControls_conditional`.
-/
namespace StateSynthesis

open Assignment Wave Sequence

/-! ## Sequences under controls -/

namespace Sequence

/-- On every circuit that has the qubits `qs`, the sequence `gs` does what the sequence `hs` does
where all controls are one, and nothing elsewhere. -/
structure Conditional (gs hs : List (Gate ℝ)) (controls qs : List Qubit) : Prop where
  /-- Of any state, the amplitudes where all controls are one become those that `hs` leaves, and the
  other ones stay. -/
  amplitudes : ∀ qubits : List Qubit, qubits.Nodup → (∀ q ∈ qs, q ∈ qubits) →
    ∀ s : State ℝ (State.axes qubits), ∃ t u, applyTo gs s = .ok t ∧ applyTo hs s = .ok u ∧
      ∀ bits, State.wave t bits =
        if ∀ c ∈ controls, bits c = true then State.wave u bits else State.wave s bits
  /-- A state in which some control is zero is kept. -/
  idle : ∀ qubits : List Qubit, qubits.Nodup → (∀ q ∈ qs, q ∈ qubits) →
    ∀ s : State ℝ (State.axes qubits),
      (∀ bits, (∀ c ∈ controls, bits c = true) → State.wave s bits = 0) → applyTo gs s = .ok s
  /-- A state in which all controls are one becomes what `hs` makes of it. -/
  active : ∀ qubits : List Qubit, qubits.Nodup → (∀ q ∈ qs, q ∈ qubits) →
    ∀ s : State ℝ (State.axes qubits),
      (∀ bits, ¬ (∀ c ∈ controls, bits c = true) → State.wave s bits = 0) →
      applyTo gs s = applyTo hs s

theorem conditional_of_act {gs hs : List (Gate ℝ)} {controls qs rs : List Qubit} (hg : On qs gs)
    (hh : On rs hs) (hrs : ∀ q ∈ rs, q ∈ qs) (hd : ∀ c ∈ controls, c ∉ rs)
    (h : ∀ ψ bits, act gs ψ bits =
      if ∀ c ∈ controls, bits c = true then act hs ψ bits else ψ bits) :
    Conditional gs hs controls qs := by
  have hones (q : Qubit) (hq : q ∈ rs) (bits : Assignment) (b : Bool) :=
    ones_update (fun hc => hd q hc hq) bits b
  refine ⟨fun qubits hn hqs s => ?_, fun qubits hn hqs s hs => ?_, fun qubits hn hqs s hs => ?_⟩
  all_goals
    obtain ⟨t, ht, hw⟩ := realises_act hg qubits hn hqs s
    obtain ⟨u, hu, hv⟩ := realises_act (hh.mono hrs) qubits hn hqs s
  · exact ⟨t, u, ht, hu, fun bits => by rw [hw, hv, h]⟩
  · rw [ht]
    congr 1
    refine State.wave_injective (State.nodup_axes hn) (funext fun bits => ?_)
    rw [hw, h]
    split
    · rename_i hb
      have hkept : act _ (State.wave s) bits = act _ (fun _ => 0) bits :=
        act_congr_of_closed hh (fun q hq bits b => (hones q hq bits b).mpr) hs bits hb
      rw [hkept, hs bits hb, act_zero]
    · rfl
  · rw [ht, hu]
    congr 1
    refine State.wave_injective (State.nodup_axes hn) (funext fun bits => ?_)
    rw [hw, hv, h]
    split
    · rfl
    · rename_i hb
      have hkept : act _ (State.wave s) bits = act _ (fun _ => 0) bits :=
        act_congr_of_closed hh (fun q hq bits b => mt (hones q hq bits b).mp) hs bits hb
      rw [hkept, hs bits hb, act_zero]

/-- The adjoint of a sequence that acts under controls acts under them as the adjoint. -/
theorem act_oriented_of_act {gs hs : List (Gate ℝ)} {controls qs rs : List Qubit} (hg : On qs gs)
    (hh : On rs hs) (hd : (controls ++ rs).Nodup)
    (h : ∀ ψ bits, act gs ψ bits =
      if ∀ c ∈ controls, bits c = true then act hs ψ bits else ψ bits)
    (adjoint : Bool) (ψ : Wave) (bits : Assignment) : act (oriented adjoint gs) ψ bits =
      if ∀ c ∈ controls, bits c = true then act (oriented adjoint hs) ψ bits else ψ bits := by
  have hfree : ∀ c ∈ controls, c ∉ rs := fun c hc hm => (List.nodup_append.mp hd).2.2 c hc c hm rfl
  cases adjoint with
  | false => exact h ψ bits
  | true =>
    have hcontrolled (φ : Wave) : act gs φ = act (controlled controls hs) φ :=
      funext fun bits => (h φ bits).trans (act_controlled hh hfree φ bits).symm
    have hundo : act gs (act (controlled controls (inverse hs)) ψ) = ψ := by
      rw [hcontrolled, ← inverse_controlled, act_act_inverse (hh.controlled hd)]
    show act (inverse gs) ψ bits = _
    rw [act_inverse_eq hg hundo]
    exact act_controlled hh.inverse hfree ψ bits

end Sequence

/-! ## Doubled and scaled angles -/

namespace Angles

theorem zipWith_replicate (f : ℝ → ℝ → ℝ) (c : ℝ) (xs : List ℝ) :
    List.zipWith f (List.replicate xs.length c) xs = xs.map (f c) := by
  induction xs with
  | nil => rfl
  | cons x xs ih => simp [List.replicate_succ, ih]

/-- The halves of a vector behind as many zeros, combined by `f`. -/
theorem zipWith_halves_doubled (f : ℝ → ℝ → ℝ) (xs : List ℝ) :
    let doubled := List.replicate xs.length Scalar.zero ++ xs
    List.zipWith f (doubled.take (doubled.length / 2)) (doubled.drop (doubled.length / 2)) =
      xs.map (f 0) := by
  have hlength : (List.replicate xs.length (Scalar.zero : ℝ)).length = xs.length :=
    List.length_replicate ..
  have hhalf : (List.replicate xs.length (Scalar.zero : ℝ) ++ xs).length / 2 = xs.length := by
    rw [List.length_append, hlength]
    omega
  dsimp only
  rw [hhalf, List.take_left' hlength, List.drop_left' hlength, zipWith_replicate, zero_real]

theorem even_doubled (xs : List ℝ) :
    even (List.replicate xs.length Scalar.zero ++ xs) = xs.map (1 / 2 * ·) := by
  rw [even, zipWith_halves_doubled]
  congr 1
  funext x
  rw [half_real]
  ring

theorem odd_doubled (xs : List ℝ) :
    odd (List.replicate xs.length Scalar.zero ++ xs) = xs.map (-1 / 2 * ·) := by
  rw [odd, zipWith_halves_doubled]
  congr 1
  funext x
  rw [half_real]
  ring

theorem even_map_mul (c : ℝ) (xs : List ℝ) : even (xs.map (c * ·)) = (even xs).map (c * ·) := by
  simp only [even, List.length_map, ← List.map_take, ← List.map_drop, List.zipWith_map,
    List.map_zipWith, half_real]
  congr 1
  funext x y
  ring

theorem odd_map_mul (c : ℝ) (xs : List ℝ) : odd (xs.map (c * ·)) = (odd xs).map (c * ·) := by
  simp only [odd, List.length_map, ← List.map_take, ← List.map_drop, List.zipWith_map,
    List.map_zipWith, half_real]
  congr 1
  funext x y
  ring

end Angles

theorem Tolerance.anyReaches_map_mul {c : ℝ} (hc : c ≠ 0) (τ : ℝ) (xs : List ℝ) :
    anyReaches (|c| * τ) (xs.map (c * ·)) = anyReaches τ xs := by
  rw [Bool.eq_iff_iff, anyReaches_real, anyReaches_real]
  simp only [List.mem_map, exists_exists_and_eq_and, abs_mul,
    mul_le_mul_iff_right₀ (abs_pos.mpr hc)]

namespace Multiplexer

theorem kept_mul {c : ℝ} (hc : c ≠ 0) (τ a : ℝ) : kept (|c| * τ) (c * a) = c * kept τ a := by
  simp only [kept, abs_mul, mul_lt_mul_iff_right₀ (abs_pos.mpr hc), mul_ite, mul_zero]

/-- A factor of tolerance and angles is one of what is realised, also if it turns the signs. -/
theorem realised_map_mul {c : ℝ} (hc : c ≠ 0) (τ : ℝ) (k : ℕ) (xs : List ℝ) (j : ℕ) :
    realised (|c| * τ) k (xs.map (c * ·)) j = c * realised τ k xs j := by
  induction k generalizing xs j with
  | zero =>
    have hhead : (xs.map (c * ·)).headD 0 = c * xs.headD 0 := by cases xs <;> simp
    rw [realised, realised, hhead, kept_mul hc]
  | succ k ih =>
    simp only [realised, Angles.even_map_mul, Angles.odd_map_mul, ih,
      Tolerance.anyReaches_map_mul hc]
    split <;> split <;> ring

/-! ## The action under outer controls -/

/-- Sum and difference of the doubled angles realise half of what twice the tolerance leaves. -/
theorem realised_doubled (τ : ℝ) (k : ℕ) (angles : List ℝ) (j : ℕ) :
    realised τ k (Angles.even (List.replicate angles.length Scalar.zero ++ angles)) j =
        realised (2 * τ) k angles j / 2 ∧
      realised τ k (Angles.odd (List.replicate angles.length Scalar.zero ++ angles)) j =
        -(realised (2 * τ) k angles j / 2) := by
  have hsum : |(1 / 2 : ℝ)| * (2 * τ) = τ := by
    rw [abs_of_pos one_half_pos]
    ring
  have hdifference : |(-1 / 2 : ℝ)| * (2 * τ) = τ := by
    rw [neg_div, abs_neg, hsum]
  have heven := realised_map_mul (c := 1 / 2) (by norm_num) (2 * τ) k angles j
  have hodd := realised_map_mul (c := -1 / 2) (by norm_num) (2 * τ) k angles j
  rw [hsum] at heven
  rw [hdifference] at hodd
  rw [Angles.even_doubled, Angles.odd_doubled, heven, hodd]
  constructor <;> ring

theorem act_underOuter (τ : ℝ) {target : Qubit} {cs outer : List Qubit} (hc : target ∉ cs)
    (hd : (target :: outer).Nodup) (ho : outer ≠ []) (angles : List ℝ) (ψ : Wave) :
    act (underOuter τ target cs outer angles) ψ = steer target (fun bits =>
      Axis.z.rotation (if ∀ o ∈ outer, bits o = true then
        realised (2 * τ) cs.length angles (index cs.reverse bits) else 0)) ψ := by
  have he : outer.isEmpty = false := by simpa using ho
  have hblind (as : List ℝ) : Blind target fun bits =>
      Axis.z.rotation (realised τ cs.length as (index cs.reverse bits)) :=
    blind_index (by simpa using hc) fun j => Axis.z.rotation (realised τ cs.length as j)
  simp only [underOuter, he, Bool.false_eq_true, ↓reduceIte]
  rw [act_append, act_aboutZ τ hc, act_difference τ hd hc (act_aboutZ τ hc _),
    steer_steer (hblind _)]
  congr 1
  funext bits
  obtain ⟨hsum, hdifference⟩ := realised_doubled τ cs.length angles (index cs.reverse bits)
  rw [Axis.rotation_mul, hsum, hdifference]
  split
  · rw [neg_neg, add_halves]
  · rw [neg_add_cancel]

theorem act_gates_outer (τ : ℝ) {axis : Axis} (hi : axis ≠ .identity)
    {controls outer : List Qubit} {target : Qubit} (hc : target ∉ controls)
    (hd : (target :: outer).Nodup) (ho : outer ≠ []) (angles : List ℝ) (ψ : Wave)
    (bits : Assignment) : act (gates τ axis controls target outer angles) ψ bits =
      if ∀ o ∈ outer, bits o = true then
        act (gates (2 * τ) axis controls target [] angles) ψ bits
      else ψ bits := by
  have hz (φ : Wave) : act (underOuter τ target controls.reverse outer angles) φ =
      steer target (fun bits => Axis.z.rotation (if ∀ o ∈ outer, bits o = true then
        realised (2 * τ) controls.length angles (index controls bits) else 0)) φ := by
    have hreversed : target ∉ controls.reverse := by simpa using hc
    have h := act_underOuter τ hreversed hd ho angles φ
    rwa [List.reverse_reverse, List.length_reverse] at h
  have hblind (p : Axis) : Blind target fun bits =>
      p.rotation (if ∀ o ∈ outer, bits o = true then
        realised (2 * τ) controls.length angles (index controls bits) else 0) := fun bits b => by
    simp only [ones_update (List.nodup_cons.mp hd).1, index_update hc]
  rw [gates_of_ne hi, act_basisChanges hblind hz hi,
    act_gates (2 * τ) hc fun h => absurd h hi]
  by_cases hb : ∀ o ∈ outer, bits o = true
  · simp only [steer, if_pos hb]
  · rw [if_neg hb]
    exact steer_one (by rw [if_neg hb, Axis.rotation_zero])

end Multiplexer

/-! ## The result -/

/-- **Outer controls.** Under outer controls, the gates of a multiplexed rotation do what the gates
without them do at twice the tolerance, and nothing where an outer control is zero. So do the
adjoint gates. -/
theorem outerControls_conditional {r : MultiplexedRotation ℝ} {frame : Option (Circuit ℝ)}
    {axis : Axis} {controls outer : List Qubit} {target : Qubit}
    (h : r.Admits frame axis controls outer target) (hi : axis ≠ .identity) (ho : outer ≠ []) :
    ∃ gs hs, r.gates frame = .ok gs ∧
      { r with tolerance := 2 * r.tolerance, outer := .list [] }.gates frame = .ok hs ∧
      Conditional gs hs outer (target :: (controls ++ outer)) := by
  have hτ : 0 ≤ 2 * r.tolerance := mul_nonneg zero_le_two (Tolerance.check_real.mp h.tolerance_ok)
  obtain ⟨hco, _, htd⟩ := List.nodup_append.mp h.distinct
  obtain ⟨hn, hno, hdis⟩ := List.nodup_append.mp hco
  have ht : target ∉ controls ++ outer := fun hm => htd target hm target (by simp) rfl
  have hc : target ∉ controls := fun hm => ht (List.mem_append_left _ hm)
  have hd : (target :: outer).Nodup :=
    List.nodup_cons.mpr ⟨fun hm => ht (List.mem_append_right _ hm), hno⟩
  have hplain : { r with tolerance := 2 * r.tolerance, outer := .list [] }.Admits frame axis
      controls [] target :=
    { h with
      tolerance_ok := Tolerance.check_real.mpr hτ
      outer_ok := by cases frame <;> rfl
      distinct := by
        rw [List.append_nil]
        exact List.nodup_append.mpr ⟨hn, by simp, fun q hq r hr e =>
          hc (List.mem_singleton.mp hr ▸ e ▸ hq)⟩ }
  set angles := Angles.padTo (dimension controls.length) r.angles
  have hg := Multiplexer.gates_on r.tolerance axis h.distinct angles
  have hh := Multiplexer.gates_on_plain (2 * r.tolerance) axis hc hn angles
  have hfree : ∀ o ∈ outer, o ∉ target :: controls := fun o ho hm => by
    rcases List.mem_cons.mp hm with rfl | hm
    · exact (List.nodup_cons.mp hd).1 ho
    · exact hdis o hm o ho rfl
  have hrs : ∀ q ∈ target :: controls, q ∈ target :: (controls ++ outer) := fun q hq => by
    rcases List.mem_cons.mp hq with rfl | hq
    · exact List.mem_cons_self ..
    · exact List.mem_cons_of_mem _ (List.mem_append_left _ hq)
  refine ⟨_, _, h.gates_eq, hplain.gates_eq,
    conditional_of_act (hg.oriented _) (hh.oriented _) hrs hfree ?_⟩
  refine act_oriented_of_act hg hh ?_ (Multiplexer.act_gates_outer _ hi hc hd ho _) _
  exact List.nodup_append.mpr ⟨hno, List.nodup_cons.mpr ⟨hc, hn⟩,
    fun o hm q hq e => hfree o hm (e ▸ hq)⟩

/-- Two angles under one control and two outer ones. Twice the tolerance leaves one angle out. -/
theorem outerControls_conditional_pair :
    ∃ gs hs, (⟨1 / 4, [1, -1 / 3], .text "Y", .list [.qubit ⟨0, "a"⟩], .qubit ⟨1, "b"⟩,
        .list [.qubit ⟨3, "d"⟩, .qubit ⟨2, "c"⟩], true⟩ : MultiplexedRotation ℝ).gates none =
          .ok gs ∧
      (⟨2 * (1 / 4), [1, -1 / 3], .text "Y", .list [.qubit ⟨0, "a"⟩], .qubit ⟨1, "b"⟩, .list [],
        true⟩ : MultiplexedRotation ℝ).gates none = .ok hs ∧
      Conditional gs hs [⟨3, "d"⟩, ⟨2, "c"⟩] [⟨1, "b"⟩, ⟨0, "a"⟩, ⟨3, "d"⟩, ⟨2, "c"⟩] := by
  have hadmits : (⟨1 / 4, [1, -1 / 3], .text "Y", .list [.qubit ⟨0, "a"⟩], .qubit ⟨1, "b"⟩,
      .list [.qubit ⟨3, "d"⟩, .qubit ⟨2, "c"⟩], true⟩ : MultiplexedRotation ℝ).Admits none .y
        [⟨0, "a"⟩] [⟨3, "d"⟩, ⟨2, "c"⟩] ⟨1, "b"⟩ :=
    ⟨Tolerance.check_real.mpr (by norm_num), rfl, rfl, rfl, rfl, by decide, by decide, le_rfl⟩
  exact outerControls_conditional hadmits (by decide) (by simp)

end StateSynthesis
