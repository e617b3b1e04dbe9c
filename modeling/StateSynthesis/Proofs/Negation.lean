import StateSynthesis.Proofs.OuterControls

/-!
Negated angles. A test looks at absolute values only, and sum and difference of the halves are odd,
so a multiplexer prunes the negated angles as it prunes the angles and emits the same gates with the
other sign (`aboutZ_negated`, `gates_negated`). These gates are in the order of the recursion, the
adjoint gates in the reverse one, but both turn the target back by what is realised of the angles
(`act_gates_neg`), so the gates of negated angles undo those of the angles. Main statement:
`multiplexedRotation_negated`.
-/
namespace StateSynthesis

open Sequence

variable {α : Type} [Scalar α]

/-! ## Opposite scalars -/

namespace Scalar

/-- `y` is the negative of `x`, up to the sign of a zero. -/
def Opposite (x y : α) : Prop := y = -x ∨ (x == zero) = true ∧ (y == zero) = true

/-- Half sums and half differences are odd, and an absolute value does not have a sign, which holds
in binary floating point too. -/
structure Symmetric (α : Type) [Scalar α] : Prop where
  zero_eq : ((zero : α) == zero) = true
  sum {x x' y y' : α} : Opposite x x' → Opposite y y' → Opposite (half (x + y)) (half (x' + y'))
  difference {x x' y y' : α} :
    Opposite x x' → Opposite y y' → Opposite (half (x - y)) (half (x' - y'))
  half_neg (x : α) : half (-x) = -half x
  abs_eq {x y : α} : Opposite x y → abs y = abs x
  zero_within {τ x : α} : le zero τ = true → (x == zero) = true → lt τ (abs x) = false

theorem opposite_real (x y : ℝ) : Opposite x y ↔ y = -x := by
  simp only [Opposite, beq_real, zero_real]
  constructor
  · rintro (rfl | ⟨rfl, rfl⟩)
    · rfl
    · exact neg_zero.symm
  · exact Or.inl

theorem symmetric_real : Symmetric ℝ where
  zero_eq := by simp
  sum hx hy := by
    rw [opposite_real] at hx hy ⊢
    rw [hx, hy, half_real, half_real]
    ring
  difference hx hy := by
    rw [opposite_real] at hx hy ⊢
    rw [hx, hy, half_real, half_real]
    ring
  half_neg x := by
    rw [half_real, half_real]
    ring
  abs_eq hx := by
    rw [opposite_real] at hx
    rw [hx, abs_real, abs_real, abs_neg]
  zero_within hτ hx := by
    rw [beq_real, zero_real] at hx
    rw [le_real, zero_real] at hτ
    rw [hx, abs_real, abs_zero, Bool.eq_false_iff, Ne, lt_real, not_lt]
    exact hτ

end Scalar

open Scalar

/-! ## Opposite vectors -/

/-- Entry by entry. -/
abbrev Angles.Opposites : List α → List α → Prop := List.Forall₂ Opposite

theorem Angles.opposites_map_neg (xs : List α) : Opposites xs (xs.map (- ·)) := by
  rw [Opposites, List.forall₂_map_right_iff, List.forall₂_same]
  exact fun x _ => Or.inl rfl

section Vectors

variable (hα : Scalar.Symmetric α) {xs ys : List α}

include hα

namespace Angles

theorem opposites_replicate_zero (n : Nat) :
    Opposites (List.replicate n (zero : α)) (List.replicate n zero) := by
  rw [Opposites, List.forall₂_same]
  intro x hx
  obtain rfl := List.eq_of_mem_replicate hx
  exact Or.inr ⟨hα.zero_eq, hα.zero_eq⟩

theorem opposites_padTo_map_neg (n : Nat) (xs : List α) :
    Opposites (padTo n xs) (padTo n (xs.map (- ·))) := by
  rw [padTo, padTo, List.length_map]
  exact List.rel_append (opposites_map_neg xs) (opposites_replicate_zero hα _)

omit hα in
theorem opposites_zipWith {f : α → α → α}
    (hf : ∀ {x x' y y'}, Opposite x x' → Opposite y y' → Opposite (f x y) (f x' y'))
    {xs xs' ys ys' : List α} (hx : Opposites xs xs') (hy : Opposites ys ys') :
    Opposites (List.zipWith f xs ys) (List.zipWith f xs' ys') := by
  induction hx generalizing ys ys' with
  | nil => exact .nil
  | cons hx _ ih =>
    cases hy with
    | nil => exact .nil
    | cons hy hys => exact .cons (hf hx hy) (ih hys)

theorem opposites_even (h : Opposites xs ys) : Opposites (even xs) (even ys) := by
  rw [even, even, ← h.length_eq]
  exact opposites_zipWith hα.sum (List.forall₂_take _ h) (List.forall₂_drop _ h)

theorem opposites_odd (h : Opposites xs ys) : Opposites (odd xs) (odd ys) := by
  rw [odd, odd, ← h.length_eq]
  exact opposites_zipWith hα.difference (List.forall₂_take _ h) (List.forall₂_drop _ h)

theorem opposites_doubled (h : Opposites xs ys) : Opposites
    (List.replicate xs.length zero ++ xs) (List.replicate ys.length zero ++ ys) := by
  rw [← h.length_eq]
  exact List.rel_append (opposites_replicate_zero hα _) h

theorem opposite_headD (h : Opposites xs ys) : Opposite (xs.headD zero) (ys.headD zero) := by
  cases h with
  | nil => exact Or.inr ⟨hα.zero_eq, hα.zero_eq⟩
  | cons h _ => exact h

end Angles

theorem Tolerance.anyReaches_opposites (τ : α) (h : Angles.Opposites xs ys) :
    anyReaches τ ys = anyReaches τ xs := by
  induction h with
  | nil => rfl
  | cons h _ ih =>
    simp only [anyReaches] at ih ⊢
    rw [List.any_cons, List.any_cons, ih, hα.abs_eq h]

end Vectors

/-! ## Gates with the other sign -/

/-- The kind of the gates that turn by an angle: a rotation about the identity is a phase. -/
def Axis.turningKind : Axis → Kind
  | identity => .gphase
  | _ => .rz

/-- The gate with the angle negated, if it is of the kind `k`. -/
def Gate.negated (k : Kind) (g : Gate α) : Gate α :=
  if g.kind = k then { g with angle := -g.angle } else g

theorem Gate.inverse_negated {k : Kind} (hk : k = .rz ∨ k = .gphase) (g : Gate α) :
    (g.negated k).inverse = g.inverse.negated k := by
  have hkind : g.inverse.kind = k ↔ g.kind = k := by
    rcases hk with rfl | rfl <;> cases hg : g.kind <;> simp [Gate.inverse, hg, Kind.inverse]
  by_cases h : g.kind = k
  · rw [negated, negated, if_pos h, if_pos (hkind.mpr h)]
    rcases hk with rfl | rfl <;> simp [Gate.inverse, h, angleFor, Kind.isParametrized]
  · rw [negated, negated, if_neg h, if_neg (mt hkind.mp h)]

namespace Sequence

variable {k : Kind} (hk : k = .rz ∨ k = .gphase)

include hk

theorem inverse_negated (gs : List (Gate α)) :
    inverse (gs.map (Gate.negated k)) = (inverse gs).map (Gate.negated k) := by
  simp only [inverse, List.map_map, ← List.map_reverse]
  exact List.map_congr_left fun g _ => g.inverse_negated hk

theorem oriented_negated (adjoint : Bool) (gs : List (Gate α)) :
    oriented adjoint (gs.map (Gate.negated k)) = (oriented adjoint gs).map (Gate.negated k) := by
  cases adjoint with
  | false => rfl
  | true => exact inverse_negated hk gs

/-- Gates of other kinds stay around a sequence as they are. -/
theorem conjugated_negated {v : Gate α} (hv : v.kind ≠ k) (gs : List (Gate α)) :
    conjugated [v] (gs.map (Gate.negated k)) = (conjugated [v] gs).map (Gate.negated k) := by
  have hsame : [v].map (Gate.negated k) = [v] := by simp [Gate.negated, hv]
  cases gs with
  | nil => rfl
  | cons g gs =>
    show [v] ++ (g :: gs).map _ ++ inverse [v] = ([v] ++ (g :: gs) ++ inverse [v]).map _
    rw [List.map_append, List.map_append, ← inverse_negated hk, hsame]

end Sequence

/-! ## The recursion -/

namespace Multiplexer

section Recursion

variable (hα : Scalar.Symmetric α) {τ : α} (hτ : le zero τ = true) {xs ys : List α}

include hα hτ

/-- A zero is never emitted, so what is emitted has just the other sign. -/
theorem leaf_negated {k : Kind} {gate : α → Gate α} (hgate : ∀ a, gate (-a) = (gate a).negated k)
    (h : Angles.Opposites xs ys) :
    leaf τ gate ys = (leaf τ gate xs).map (Gate.negated k) := by
  have hhead := Angles.opposite_headD hα h
  have htest : Tolerance.exceeds τ (ys.headD zero) = Tolerance.exceeds τ (xs.headD zero) := by
    rw [Tolerance.exceeds, Tolerance.exceeds, hα.abs_eq hhead]
  simp only [leaf, htest]
  cases he : Tolerance.exceeds τ (xs.headD zero) with
  | false => rfl
  | true =>
    rcases hhead with hneg | ⟨hzero, -⟩
    · simp only [↓reduceIte, List.map_cons, List.map_nil, hneg, hgate]
    · exact absurd (he.symm.trans (hα.zero_within hτ hzero)) (by decide)

theorem aboutZ_negated (target : Qubit) (cs : List Qubit) (h : Angles.Opposites xs ys) :
    aboutZ τ target cs ys = (aboutZ τ target cs xs).map (Gate.negated .rz) := by
  induction cs generalizing xs ys with
  | nil => exact leaf_negated hα hτ (fun a => rfl) h
  | cons c cs ih =>
    have hodd := Angles.opposites_odd hα h
    have hx : (Gate.x target [c] : Gate α).kind ≠ .rz := by simp [Gate.x]
    rw [aboutZ, aboutZ, ih (Angles.opposites_even hα h), ih hodd,
      Tolerance.anyReaches_opposites hα τ hodd, conjugated_negated (.inl rfl) hx, List.map_append,
      apply_ite (List.map _), List.map_nil]

theorem underOuter_negated (target : Qubit) (cs outer : List Qubit) (h : Angles.Opposites xs ys) :
    underOuter τ target cs outer ys =
      (underOuter τ target cs outer xs).map (Gate.negated .rz) := by
  unfold underOuter
  split
  · exact aboutZ_negated hα hτ target cs h
  · have hdoubled := Angles.opposites_doubled hα h
    have hodd := Angles.opposites_odd hα hdoubled
    have hx : (Gate.x target outer : Gate α).kind ≠ .rz := by simp [Gate.x]
    dsimp only
    rw [aboutZ_negated hα hτ target cs (Angles.opposites_even hα hdoubled),
      aboutZ_negated hα hτ target cs hodd, Tolerance.anyReaches_opposites hα τ hodd,
      conjugated_negated (.inl rfl) hx, List.map_append, apply_ite (List.map _), List.map_nil]

theorem gates_negated (axis : Axis) (controls : List Qubit) (target : Qubit) (outer : List Qubit)
    (h : Angles.Opposites xs ys) : gates τ axis controls target outer ys =
      (gates τ axis controls target outer xs).map (Gate.negated axis.turningKind) := by
  have hbody := underOuter_negated hα hτ target controls.reverse outer h
  have hbases (ks : List Kind) (hks : ∀ k ∈ ks, k ≠ .rz) :
      ks.foldr (fun k body => conjugated [Gate.basis k target] body)
          (underOuter τ target controls.reverse outer ys) =
        (ks.foldr (fun k body => conjugated [Gate.basis k target] body)
          (underOuter τ target controls.reverse outer xs)).map (Gate.negated .rz) := by
    induction ks with
    | nil => exact hbody
    | cons k ks ih =>
      obtain ⟨hk, hks⟩ := List.forall_mem_cons.mp hks
      rw [List.foldr_cons, List.foldr_cons, ih hks]
      exact conjugated_negated (.inl rfl) hk _
  cases axis with
  | identity =>
    have hgate (a : α) : Gate.gphase (half (- -a)) outer =
        (Gate.gphase (half (-a)) outer).negated .gphase := by
      rw [hα.half_neg]
      rfl
    show leaf τ (fun a => Gate.gphase (half (-a)) outer) ys =
      (leaf τ (fun a => Gate.gphase (half (-a)) outer) xs).map (Gate.negated .gphase)
    exact leaf_negated hα hτ hgate h
  | x => exact hbases _ (by decide)
  | y => exact hbases _ (by decide)
  | z => exact hbases _ (by decide)

end Recursion

end Multiplexer

/-! ## The action of the gates -/

theorem Angles.padTo_map_neg (n : ℕ) (xs : List ℝ) :
    padTo n (xs.map (- ·)) = (padTo n xs).map (- ·) := by
  simp [padTo]

namespace Sequence

/-- On every circuit that has the qubits `qs`, the sequences take each state to the same one. -/
def SameAction (gs hs : List (Gate ℝ)) (qs : List Qubit) : Prop :=
  ∀ qubits : List Qubit, qubits.Nodup → (∀ q ∈ qs, q ∈ qubits) →
    ∀ s : State ℝ (State.axes qubits), ∃ t, applyTo gs s = .ok t ∧ applyTo hs s = .ok t

theorem sameAction_of_act {gs hs : List (Gate ℝ)} {qs : List Qubit} (hg : On qs gs) (hh : On qs hs)
    (h : ∀ ψ, act gs ψ = act hs ψ) : SameAction gs hs qs := by
  intro qubits hn hqs s
  obtain ⟨t, ht, hw⟩ := realises_act hg qubits hn hqs s
  obtain ⟨u, hu, hw'⟩ := realises_act hh qubits hn hqs s
  rw [h, ← hw'] at hw
  obtain rfl := State.wave_injective (State.nodup_axes hn) hw
  exact ⟨t, ht, hu⟩

end Sequence

namespace Multiplexer

theorem realised_map_neg (τ : ℝ) (k : ℕ) (xs : List ℝ) (j : ℕ) :
    realised τ k (xs.map (- ·)) j = -realised τ k xs j := by
  have h := realised_map_mul (c := -1) (by norm_num) τ k xs j
  simpa using h

/-- About the identity there is at most one gate, so the order does not matter. -/
theorem gates_identity_neg {τ : ℝ} (hτ : 0 ≤ τ) (controls outer : List Qubit) (target : Qubit)
    (angles : List ℝ) : gates τ .identity controls target outer (angles.map (- ·)) =
      inverse (gates τ .identity controls target outer angles) := by
  have hle : le zero τ = true := by simpa using hτ
  rw [gates_negated symmetric_real hle .identity controls target outer
    (Angles.opposites_map_neg angles)]
  simp only [gates, leaf]
  split <;> rfl

theorem act_gates_plain_neg (τ : ℝ) {axis : Axis} (hi : axis ≠ .identity) {controls : List Qubit}
    {target : Qubit} (hc : target ∉ controls) (hn : controls.Nodup) (angles : List ℝ) (ψ : Wave) :
    act (gates τ axis controls target [] (angles.map (- ·))) ψ =
      act (inverse (gates τ axis controls target [] angles)) ψ := by
  rw [act_gates τ hc fun h => absurd h hi, act_inverse_gates τ hc hn fun h => absurd h hi]
  simp only [realised_map_neg]

/-- The gates for the negated angles turn the target back, whatever is pruned. -/
theorem act_gates_neg {τ : ℝ} (hτ : 0 ≤ τ) {axis : Axis} {controls outer : List Qubit}
    {target : Qubit} (hd : (controls ++ outer ++ [target]).Nodup) (angles : List ℝ) (ψ : Wave) :
    act (gates τ axis controls target outer (angles.map (- ·))) ψ =
      act (inverse (gates τ axis controls target outer angles)) ψ := by
  obtain ⟨hco, -, htd⟩ := List.nodup_append.mp hd
  obtain ⟨hn, hno, hdis⟩ := List.nodup_append.mp hco
  have ht : target ∉ controls ++ outer := fun hm => htd target hm target (by simp) rfl
  have hc : target ∉ controls := fun hm => ht (List.mem_append_left _ hm)
  have htarget : (target :: outer).Nodup :=
    List.nodup_cons.mpr ⟨fun hm => ht (List.mem_append_right _ hm), hno⟩
  by_cases hi : axis = .identity
  · subst hi
    rw [gates_identity_neg hτ]
  by_cases ho : outer = []
  · subst ho
    exact act_gates_plain_neg τ hi hc hn angles ψ
  have hon := gates_on τ axis hd angles
  have honPlain := gates_on_plain (2 * τ) axis hc hn angles
  have hapart : (outer ++ target :: controls).Nodup := by
    refine List.nodup_append.mpr ⟨hno, List.nodup_cons.mpr ⟨hc, hn⟩, fun o hm q hq e => ?_⟩
    rcases List.mem_cons.mp hq with rfl | hq
    · exact (List.nodup_cons.mp htarget).1 (e ▸ hm)
    · exact hdis q hq o hm e.symm
  have hback := act_oriented_of_act hon honPlain hapart
    (act_gates_outer τ hi hc htarget ho angles) true ψ
  funext bits
  rw [act_gates_outer τ hi hc htarget ho, act_gates_plain_neg (2 * τ) hi hc hn]
  exact (hback bits).symm

theorem act_oriented_gates_neg {τ : ℝ} (hτ : 0 ≤ τ) {axis : Axis} {controls outer : List Qubit}
    {target : Qubit} (hd : (controls ++ outer ++ [target]).Nodup) (angles : List ℝ)
    (adjoint : Bool) (ψ : Wave) :
    act (oriented adjoint (gates τ axis controls target outer (angles.map (- ·)))) ψ =
      act (oriented (!adjoint) (gates τ axis controls target outer angles)) ψ := by
  cases adjoint with
  | false => exact act_gates_neg hτ hd angles ψ
  | true =>
    refine act_inverse_eq (gates_on τ axis hd _) ?_
    rw [act_gates_neg hτ hd]
    exact act_inverse_act (gates_on τ axis hd angles) ψ

end Multiplexer

/-! ## The result -/

/-- **Negated angles.** Whatever multiplexed rotation is accepted, for the negated angles it emits
the same gates, but for the sign of every angle. They act as the gates that it emits for the angles
with the other orientation. In particular the gates that disentangling takes, for negated angles and
without outer controls, undo those for the angles. -/
theorem multiplexedRotation_negated (hα : Scalar.Symmetric α) :
    (∀ (r : MultiplexedRotation α) (frame : Option (Circuit α)) (axis : Axis)
      (controls outer : List Qubit) (target : Qubit), r.Admits frame axis controls outer target →
        ∃ gs, r.gates frame = .ok gs ∧ { r with angles := r.angles.map (- ·) }.gates frame =
          .ok (gs.map (Gate.negated axis.turningKind))) ∧
    (∀ (r : MultiplexedRotation ℝ) (frame : Option (Circuit ℝ)) (axis : Axis)
      (controls outer : List Qubit) (target : Qubit), r.Admits frame axis controls outer target →
        ∃ gs hs, { r with angles := r.angles.map (- ·) }.gates frame = .ok gs ∧
          { r with adjoint := !r.adjoint }.gates frame = .ok hs ∧
          SameAction gs hs (target :: (controls ++ outer))) ∧
    ∀ (τ : ℝ) (axis : Axis) (controls : List Qubit) (target : Qubit) (angles : List ℝ), 0 ≤ τ →
      (target :: controls).Nodup →
        Undoes (Multiplexer.gates τ axis controls target [] (angles.map (- ·)))
          (Multiplexer.gates τ axis controls target [] angles) (target :: controls) := by
  refine ⟨fun r frame axis controls outer target h => ?_,
    fun r frame axis controls outer target h => ?_, fun τ axis controls target angles hτ hn => ?_⟩
  · have hτ : le zero r.tolerance = true := Tolerance.check_eq_ok_iff.mp h.tolerance_ok
    have hneg : { r with angles := r.angles.map (- ·) }.Admits frame axis controls outer target :=
      { h with angles_fit := (List.length_map _).trans_le h.angles_fit }
    have hpadded := Angles.opposites_padTo_map_neg hα (dimension controls.length) r.angles
    refine ⟨_, h.gates_eq, hneg.gates_eq.trans (congrArg Except.ok ?_)⟩
    have hkind : axis.turningKind = .rz ∨ axis.turningKind = .gphase := by
      cases axis <;> simp [Axis.turningKind]
    rw [Multiplexer.gates_negated hα hτ axis controls target outer hpadded]
    exact oriented_negated hkind r.adjoint _
  · have hτ : 0 ≤ r.tolerance := Tolerance.check_real.mp h.tolerance_ok
    have hneg : { r with angles := r.angles.map (- ·) }.Admits frame axis controls outer target :=
      { h with angles_fit := (List.length_map _).trans_le h.angles_fit }
    have hon (angles : List ℝ) (adjoint : Bool) := (Multiplexer.gates_on r.tolerance axis h.distinct
      angles).oriented adjoint
    refine ⟨_, _, hneg.gates_eq, (h.withAdjoint (!r.adjoint)).gates_eq,
      sameAction_of_act (hon _ _) (hon _ _) fun ψ => ?_⟩
    rw [Angles.padTo_map_neg]
    exact Multiplexer.act_oriented_gates_neg hτ h.distinct _ r.adjoint ψ
  · obtain ⟨ht, hcontrols⟩ := List.nodup_cons.mp hn
    have hd : (controls ++ [] ++ [target]).Nodup := by
      rw [List.append_nil]
      exact (List.perm_append_singleton target controls).nodup_iff.mpr hn
    have hon := Multiplexer.gates_on_plain τ axis ht hcontrols
    refine undoes_of_act (hon angles) (hon _) fun ψ => ?_
    rw [Multiplexer.act_gates_neg hτ hd]
    exact act_inverse_act (hon angles) ψ

/-- Two angles under one control. The gates for the negated angles and the adjoint gates are ordered
differently. -/
theorem multiplexedRotation_negated_pair :
    (⟨0, [-3, -1], .text "Z", .list [.qubit ⟨0, "c"⟩], .qubit ⟨1, "t"⟩, .list [], false⟩ :
        MultiplexedRotation ℝ).gates none = .ok [Gate.rz (-2) ⟨1, "t"⟩,
          Gate.x ⟨1, "t"⟩ [⟨0, "c"⟩], Gate.rz (-1) ⟨1, "t"⟩, Gate.x ⟨1, "t"⟩ [⟨0, "c"⟩]] ∧
      (⟨0, [3, 1], .text "Z", .list [.qubit ⟨0, "c"⟩], .qubit ⟨1, "t"⟩, .list [], true⟩ :
        MultiplexedRotation ℝ).gates none = .ok [Gate.x ⟨1, "t"⟩ [⟨0, "c"⟩],
          Gate.rz (-1) ⟨1, "t"⟩, Gate.x ⟨1, "t"⟩ [⟨0, "c"⟩], Gate.rz (-2) ⟨1, "t"⟩] ∧
      SameAction [Gate.rz (-2) ⟨1, "t"⟩, Gate.x ⟨1, "t"⟩ [⟨0, "c"⟩], Gate.rz (-1) ⟨1, "t"⟩,
          Gate.x ⟨1, "t"⟩ [⟨0, "c"⟩]]
        [Gate.x ⟨1, "t"⟩ [⟨0, "c"⟩], Gate.rz (-1) ⟨1, "t"⟩, Gate.x ⟨1, "t"⟩ [⟨0, "c"⟩],
          Gate.rz (-2) ⟨1, "t"⟩] [⟨1, "t"⟩, ⟨0, "c"⟩] := by
  have hadmits : (⟨0, [3, 1], .text "Z", .list [.qubit ⟨0, "c"⟩], .qubit ⟨1, "t"⟩, .list [],
      false⟩ : MultiplexedRotation ℝ).Admits none .z [⟨0, "c"⟩] [] ⟨1, "t"⟩ :=
    ⟨Tolerance.check_real.mpr le_rfl, rfl, rfl, rfl, rfl, by decide, by decide, le_rfl⟩
  have hgates : Multiplexer.gates 0 .z [⟨0, "c"⟩] ⟨1, "t"⟩ [] (Angles.padTo 2 [(3 : ℝ), 1]) =
      [Gate.rz 2 ⟨1, "t"⟩, Gate.x ⟨1, "t"⟩ [⟨0, "c"⟩], Gate.rz 1 ⟨1, "t"⟩,
        Gate.x ⟨1, "t"⟩ [⟨0, "c"⟩]] := by
    norm_num [Multiplexer.gates, Axis.basisChanges, Multiplexer.underOuter, Multiplexer.aboutZ,
      Multiplexer.leaf, Angles.padTo, Angles.even, Angles.odd, conjugated, Tolerance.exceeds,
      Tolerance.anyReaches, Sequence.inverse, Gate.inverse, Gate.x, Gate.rz, Kind.inverse,
      Gate.angleFor, Kind.isParametrized]
  obtain ⟨gs, hgs, hneg⟩ := (multiplexedRotation_negated symmetric_real).1 _ _ _ _ _ _ hadmits
  obtain rfl := Except.ok.inj
    ((hadmits.gates_eq.trans (congrArg Except.ok hgates)).symm.trans hgs)
  obtain ⟨ks, hs, hks, hhs, hsame⟩ :=
    (multiplexedRotation_negated symmetric_real).2.1 _ _ _ _ _ _ hadmits
  obtain rfl := Except.ok.inj (hneg.symm.trans hks)
  have hadjoint := (hadmits.withAdjoint true).gates_eq.trans
    (congrArg (Except.ok ∘ Sequence.inverse) hgates)
  obtain rfl := Except.ok.inj (hadjoint.symm.trans hhs)
  have hnegated : [Gate.rz 2 ⟨1, "t"⟩, Gate.x ⟨1, "t"⟩ [⟨0, "c"⟩], Gate.rz 1 ⟨1, "t"⟩,
        Gate.x ⟨1, "t"⟩ [⟨0, "c"⟩]].map (Gate.negated Axis.z.turningKind) =
      [Gate.rz (-2 : ℝ) ⟨1, "t"⟩, Gate.x ⟨1, "t"⟩ [⟨0, "c"⟩], Gate.rz (-1) ⟨1, "t"⟩,
        Gate.x ⟨1, "t"⟩ [⟨0, "c"⟩]] := by
    simp [Gate.negated, Axis.turningKind, Gate.rz, Gate.x]
  have hinverse : Sequence.inverse [Gate.rz 2 ⟨1, "t"⟩, Gate.x ⟨1, "t"⟩ [⟨0, "c"⟩],
        Gate.rz 1 ⟨1, "t"⟩, Gate.x ⟨1, "t"⟩ [⟨0, "c"⟩]] =
      [Gate.x ⟨1, "t"⟩ [⟨0, "c"⟩], Gate.rz (-1 : ℝ) ⟨1, "t"⟩, Gate.x ⟨1, "t"⟩ [⟨0, "c"⟩],
        Gate.rz (-2) ⟨1, "t"⟩] := by
    simp [Sequence.inverse, Gate.inverse, Gate.rz, Gate.x, Kind.inverse, Gate.angleFor,
      Kind.isParametrized]
  rw [hnegated] at hneg hsame
  refine ⟨hneg, ?_, ?_⟩
  · rw [← hinverse]
    exact hadjoint
  · rw [← hinverse]
    exact hsame

end StateSynthesis
