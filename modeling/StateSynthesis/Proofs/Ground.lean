import StateSynthesis.Proofs.ExactPreparation
import StateSynthesis.Proofs.Pruning

/-!
Vectors that need no gates. A positive multiple of the zero state is disentangled already: whatever
the tolerance is, every level finds angles that are zero and merges it into a shorter vector of the
same form (`disentangle_ground`). Any other vector is not, as without gates a register stays at
zero (`Prepares.eq_unit`). Main statement: `nothing_emitted_iff`.
-/
namespace StateSynthesis

open Assignment Sequence Amplitude

/-- The first number is real and positive, all the others are zero. -/
def Grounded (v : List (Cartesian ℝ)) : Prop :=
  ∃ (x : ℝ) (n : ℕ), 0 < x ∧ v = ⟨x, 0⟩ :: List.replicate n Cartesian.zero

/-! ## Without gates -/

theorem Sequence.Prepares.eq_unit {register : List Qubit} {w : ℕ → ℂ}
    (h : Prepares [] register [] w) (hn : register.Nodup) {j : ℕ}
    (hj : j < 2 ^ register.length) : w j = if j = 0 then 1 else 0 := by
  obtain ⟨t, ht, hw⟩ := h.from_zero hn
  obtain rfl : State.basis register 0 = t := Except.ok.inj ht
  rw [← hw j hj, State.wave_basis, index_ofIndex hn hj]

theorem grounded_of_entries {v : List (Cartesian ℝ)} {x : ℝ} (hx : 0 < x)
    (hhead : (v.getD 0 Cartesian.zero).toComplex = x)
    (hrest : ∀ j ≠ 0, (v.getD j Cartesian.zero).toComplex = 0) : Grounded v := by
  have hback {z w : Cartesian ℝ} (h : z.toComplex = w.toComplex) : z = w :=
    Cartesian.toComplex_injective h
  cases v with
  | nil =>
    rw [List.getD_nil, Cartesian.toComplex_zero] at hhead
    exact absurd (Complex.ofReal_eq_zero.mp hhead.symm) hx.ne'
  | cons z zs =>
    refine ⟨x, zs.length, hx, ?_⟩
    have hz : z = ⟨x, 0⟩ := hback hhead
    have hzs : zs = List.replicate zs.length Cartesian.zero := by
      refine List.eq_replicate_iff.mpr ⟨rfl, fun w hw => ?_⟩
      obtain ⟨j, hj, rfl⟩ := List.getElem_of_mem hw
      have hentry := hrest (j + 1) (Nat.succ_ne_zero j)
      rw [List.getD_cons_succ, List.getD_eq_getElem _ _ hj] at hentry
      exact hback (hentry.trans Cartesian.toComplex_zero.symm)
    rw [hz, ← hzs]

/-- Only a positive multiple of the zero state becomes the zero state when it is scaled. -/
theorem grounded_of_normalized {v : List (Cartesian ℝ)} {N : ℕ} (hN : 0 < N)
    (hl : v.length ≤ N)
    (hv : norm₂ N (fun j => (v.getD j Cartesian.zero).toComplex) ≠ 0)
    (h : ∀ j < N, normalized N (fun j => (v.getD j Cartesian.zero).toComplex) j =
      if j = 0 then 1 else 0) : Grounded v := by
  set ρ := norm₂ N fun j => (v.getD j Cartesian.zero).toComplex with hρ
  have hρ₀ : (ρ : ℂ) ≠ 0 := Complex.ofReal_ne_zero.mpr hv
  refine grounded_of_entries ((norm₂_nonneg _ _).lt_of_ne' hv) ?_ fun j hj => ?_
  · exact (div_eq_one_iff_eq hρ₀).mp (h 0 hN)
  · rcases Nat.lt_or_ge j N with hlt | hge
    · have hquotient := h j hlt
      rw [if_neg hj] at hquotient
      exact (div_eq_zero_iff.mp hquotient).resolve_right hρ₀
    · rw [List.getD_eq_default _ _ (hl.trans hge), Cartesian.toComplex_zero]

/-! ## Without angles -/

namespace Bloch

theorem ofPair_zero {r : ℝ} (hr : 0 ≤ r) : ofPair ⟨r, 0⟩ Amplitude.zero = ⟨⟨r, 0⟩, 0, 0⟩ := by
  have harg : Complex.arg ⟨r, 0⟩ = 0 := Complex.arg_ofReal_of_nonneg hr
  simp [ofPair, magnitude, phase, phiOf, thetaOf, Amplitude.zero, Real.sqrt_sq hr, harg]

theorem ofVector_replicate_zero (n : ℕ) :
    ofVector (List.replicate (2 * n) (Amplitude.zero : Amplitude ℝ)) =
      List.replicate n ⟨Amplitude.zero, 0, 0⟩ := by
  have hpair := ofPair_zero le_rfl
  induction n with
  | zero => rfl
  | succ n ih =>
    rw [Nat.mul_succ, List.replicate_succ, List.replicate_succ, ofVector, ih,
      List.replicate_succ]
    simpa [Amplitude.zero] using hpair

/-- A level of a positive multiple of the zero state. -/
theorem ofVector_ground {r : ℝ} (hr : 0 ≤ r) (n : ℕ) :
    ofVector (⟨r, 0⟩ :: List.replicate (2 * n + 1) Amplitude.zero) =
      ⟨⟨r, 0⟩, 0, 0⟩ :: List.replicate n ⟨Amplitude.zero, 0, 0⟩ := by
  rw [List.replicate_succ, ofVector, ofVector_replicate_zero, ofPair_zero hr]

end Bloch

theorem Tests.within_replicate {τ : ℝ} (hτ : 0 ≤ τ) (n : ℕ) :
    Within τ (List.replicate n 0) := by
  intro x hx
  rw [List.eq_of_mem_replicate hx, abs_zero]
  exact hτ

theorem Multiplexer.gates_eq_nil {τ : ℝ} (hτ : 0 ≤ τ) {axis : Axis} (haxis : axis ≠ .identity)
    (controls : List Qubit) (target : Qubit) {angles : List ℝ} (h : Tests.Within τ angles) :
    gates τ axis controls target [] angles = [] := by
  have tests : Tests := ⟨true, true, true, true⟩
  rw [← tests.gates_eq hτ]
  exact tests.gates_eq_nil hτ haxis controls target h

namespace Preparation

theorem disentangle_ground {τ r : ℝ} (hτ : 0 ≤ τ) (hr : 0 ≤ r) (qs : List Qubit) :
    disentangle τ qs (⟨r, 0⟩ :: List.replicate (2 ^ qs.length - 1) Amplitude.zero) = [] := by
  induction qs with
  | nil => exact Tests.leaf_eq_nil hτ _ (Tests.within_replicate hτ 1)
  | cons q qs ih =>
    have hlen : 2 ^ (q :: qs).length - 1 = 2 * (2 ^ qs.length - 1) + 1 := by
      have hpos := Nat.two_pow_pos qs.length
      rw [List.length_cons, pow_succ]
      omega
    have hgates {axis : Axis} (haxis : axis ≠ .identity) := Multiplexer.gates_eq_nil hτ haxis qs q
      (Tests.within_replicate hτ (2 ^ qs.length - 1 + 1))
    have hz : Axis.z ≠ .identity := by decide
    have hy : Axis.y ≠ .identity := by decide
    rw [hlen, disentangle, Bloch.ofVector_ground hr]
    simp only [List.map_cons, List.map_replicate, neg_zero, ← List.replicate_succ, hgates hz,
      hgates hy, ih, ite_self, List.append_nil]

end Preparation

/-! ## The gates of a vector -/

namespace Amplitude

theorem ofCartesian_zero : ofCartesian (Cartesian.zero : Cartesian ℝ) = zero := by
  simp [ofCartesian, Cartesian.modulus, Cartesian.zero, Cartesian.ofReal, zero]

theorem ofCartesian_pos {x : ℝ} (hx : 0 < x) : ofCartesian ⟨x, 0⟩ = ⟨x, 0⟩ := by
  have harg : Complex.arg ⟨x, 0⟩ = 0 := Complex.arg_ofReal_of_nonneg hx.le
  simp [ofCartesian, Cartesian.modulus, Cartesian.argument, Real.sqrt_sq hx.le, harg]

end Amplitude

namespace Action

variable {v : List (Cartesian ℝ)} {register : List Qubit}

theorem written_eq_nil_of_grounded (h : Grounded v) (hl : v.length ≤ 2 ^ register.length) :
    written v register = [] := by
  obtain ⟨x, n, hx, rfl⟩ := h
  have hpad : padTo (dimension register.length)
      ((⟨x, 0⟩ :: List.replicate n Cartesian.zero : List (Cartesian ℝ)).map ofCartesian) =
        ⟨x, 0⟩ :: List.replicate (2 ^ register.length - 1) zero := by
    rw [List.length_cons, List.length_replicate] at hl
    rw [List.map_cons, List.map_replicate, ofCartesian_pos hx, ofCartesian_zero, padTo,
      List.cons_append, List.replicate_append_replicate, List.length_cons, List.length_replicate]
    congr 2
    show n + (2 ^ register.length - (n + 1)) = 2 ^ register.length - 1
    omega
  rw [written, hpad, Preparation.disentangle_ground le_rfl hx.le]
  rfl

theorem written_eq_nil_iff (hr : register ≠ []) (hn : register.Nodup)
    (hl : v.length ≤ 2 ^ register.length) (hv : ∃ z ∈ v, z.toComplex ≠ 0) :
    written v register = [] ↔ Grounded v := by
  refine ⟨fun hnil => ?_, fun h => written_eq_nil_of_grounded h hl⟩
  have hw := prepares_written hr hn hl hv
  rw [hnil] at hw
  refine grounded_of_normalized (Nat.two_pow_pos _) hl (fun hzero => ?_)
    fun j hj => hw.eq_unit hn hj
  obtain ⟨z, hz, hne⟩ := hv
  obtain ⟨j, hj, rfl⟩ := List.getElem_of_mem hz
  have hentry := norm₂_eq_zero.mp hzero j (hj.trans_le hl)
  rw [List.getD_eq_getElem _ _ hj] at hentry
  exact hne hentry

end Action

/-! ## The result -/

/-- **Nothing to do.** Without a tolerance, a vector that is not zero is written into a new circuit,
into fresh qubits of a circuit, or into a register of a circuit without any gate exactly if its
first entry is real and positive and all the others are zero. -/
theorem nothing_emitted_iff {v : List (Cartesian ℝ)} (hv : ∃ z ∈ v, z.toComplex ≠ 0) :
    (∀ s : Session ℝ, ∃ (n : ℕ) (t : Session ℝ) (c : Circuit ℝ),
      Action.Returns (Action.prepareState v .absent none (some 0)) s (some n, false) t ∧
      t.receivers[n]? = some (.circuit c) ∧ (c.gates = [] ↔ Grounded v)) ∧
    (∀ (s : Session ℝ) (n : ℕ) (c : Circuit ℝ), s.receivers[n]? = some (.circuit c) →
      s.Free c (Preparation.registerSize v.length) →
      ∃ (t : Session ℝ) (register : List Qubit) (gs : List (Gate ℝ)),
        Action.Returns (Action.prepareState v .absent (some (.receiver n)) (some 0)) s
          (none, false) t ∧
        t.receivers[n]? = some (.circuit
          { c with qubits := c.qubits ++ register, gates := c.gates ++ gs }) ∧
        (gs = [] ↔ Grounded v)) ∧
    ∀ (s : Session ℝ) (n : ℕ) (c : Circuit ℝ) (d : Datum ℝ) (register : List Qubit),
      s.receivers[n]? = some (.circuit c) →
      Operands.resolveAll (some c) d = .ok register → register ≠ [] → register.Nodup →
      v.length ≤ 2 ^ register.length →
      ∃ gs, Action.Returns (Action.prepareState v d (some (.receiver n)) (some 0)) s
          (none, false) { s with
            receivers := s.receivers.set n (.circuit { c with gates := c.gates ++ gs }) } ∧
        (gs = [] ↔ Grounded v) := by
  refine ⟨fun s => ?_, fun s n c h hfree => ?_, fun s n c d register h hd hr hn hl => ?_⟩
  · obtain ⟨n, t, c, hrun, ht, hfresh, hgates⟩ := Action.returns_prepareState_created s hv
    obtain ⟨hr, hn, hl⟩ := Action.fresh_fits hfresh
    refine ⟨n, t, c, hrun, ht, ?_⟩
    rw [hgates]
    exact Action.written_eq_nil_iff hr hn hl hv
  · obtain ⟨t, register, hrun, hf, ht⟩ := Action.returns_prepareState_allotted h hfree hv
    obtain ⟨hr, hn, hl⟩ := Action.fresh_fits hf
    exact ⟨t, register, _, hrun, ht, Action.written_eq_nil_iff hr hn hl hv⟩
  · exact ⟨_, Action.returns_prepareState_written hr hn hl hv h hd,
      Action.written_eq_nil_iff hr hn hl hv⟩

/-- A positive number and a zero come without gates, in a circuit of their own and in fresh qubits
of another one. A negative number does not. -/
theorem nothing_emitted_iff_signs :
    (∃ (n : ℕ) (t : Session ℝ) (c : Circuit ℝ),
      Action.Returns (Action.prepareState [⟨2, 0⟩, Cartesian.zero] .absent none (some 0))
        (Session.start 0 0) (some n, false) t ∧
      t.receivers[n]? = some (.circuit c) ∧ c.gates = []) ∧
    (∃ (t : Session ℝ) (register : List Qubit),
      Action.Returns (Action.prepareState [⟨2, 0⟩, Cartesian.zero] .absent (some (.receiver 0))
        (some 0)) ⟨2, 0, [.circuit ⟨"main", [⟨0, "a"⟩, ⟨1, "b"⟩], []⟩], [], 0, 0⟩ (none, false) t ∧
      t.receivers[0]? = some (.circuit ⟨"main", [⟨0, "a"⟩, ⟨1, "b"⟩] ++ register, []⟩)) ∧
    ∃ gs ≠ [], Action.Returns (Action.prepareState [⟨(-1 : ℝ), 0⟩] (.list [.integer 1])
        (some (.receiver 0)) (some 0))
      ⟨2, 0, [.circuit ⟨"main", [⟨0, "a"⟩, ⟨1, "b"⟩], []⟩], [], 0, 0⟩ (none, false)
      ⟨2, 0, [.circuit ⟨"main", [⟨0, "a"⟩, ⟨1, "b"⟩], gs⟩], [], 0, 0⟩ := by
  have hgrounded : Grounded [⟨2, 0⟩, Cartesian.zero] := ⟨2, 1, two_pos, rfl⟩
  have hnegative : ¬ Grounded [⟨-1, 0⟩] := by
    rintro ⟨x, n, hx, he⟩
    have hre : -1 = x := congrArg Cartesian.re (List.cons.inj he).1
    linarith
  have htwo : Cartesian.toComplex ⟨2, 0⟩ ≠ 0 := fun h => two_ne_zero (congrArg Complex.re h)
  have hone : Cartesian.toComplex ⟨-1, 0⟩ ≠ 0 := fun h =>
    neg_ne_zero.mpr one_ne_zero (congrArg Complex.re h)
  obtain ⟨hnew, hjoined, -⟩ := nothing_emitted_iff (v := [⟨2, 0⟩, Cartesian.zero])
    ⟨_, List.mem_cons_self, htwo⟩
  obtain ⟨-, -, hregister⟩ := nothing_emitted_iff (v := [⟨-1, 0⟩]) ⟨_, List.mem_cons_self, hone⟩
  refine ⟨?_, ?_, ?_⟩
  · obtain ⟨n, t, c, hrun, ht, hiff⟩ := hnew (Session.start 0 0)
    exact ⟨n, t, c, hrun, ht, hiff.mpr hgrounded⟩
  · obtain ⟨t, register, gs, hrun, ht, hiff⟩ := hjoined
      ⟨2, 0, [.circuit ⟨"main", [⟨0, "a"⟩, ⟨1, "b"⟩], []⟩], [], 0, 0⟩ 0 _ rfl
      (Session.free_of_nodup (by decide))
    rw [hiff.mpr hgrounded] at ht
    exact ⟨t, register, hrun, ht⟩
  · obtain ⟨gs, hrun, hiff⟩ := hregister
      ⟨2, 0, [.circuit ⟨"main", [⟨0, "a"⟩, ⟨1, "b"⟩], []⟩], [], 0, 0⟩ 0 _
      (.list [.integer 1]) [⟨1, "b"⟩] rfl rfl (by simp) (by simp) one_le_two
    exact ⟨gs, mt hiff.mp hnegative, hrun⟩

end StateSynthesis
