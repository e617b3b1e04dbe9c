import StateSynthesis.Proofs.Reachability

/-!
Which circuits can be simulated. The matrix of a gate has to fit its operands: two by two for a
target, one by one without. Well-formed gates fit, except for global phases that were given a target
(`fits_iff`), which a circuit accepts like any other gate. The simulator applies gates that fit to
every state, and fails at the first that does not. Main statement: `statevector_of_reached`.
-/
namespace StateSynthesis

variable {α : Type} [Scalar α]

/-! ## Gates -/

namespace Gate

/-- The matrix of the gate is square, with a row for each value of the target, if there is one. -/
structure Fits (g : Gate α) : Prop where
  rows : (g.kind.matrixRows g.angle).length = dimension g.target.toList.length
  columns : ∀ row ∈ g.kind.matrixRows g.angle, row.length = dimension g.target.toList.length

variable {g : Gate α}

/-- The sizes of the matrices of the kinds. -/
theorem matrixRows_size (g : Gate α) :
    (g.kind.matrixRows g.angle).length = (if g.kind = .gphase then 1 else 2) ∧
      ∀ row ∈ g.kind.matrixRows g.angle, row.length = if g.kind = .gphase then 1 else 2 := by
  cases hk : g.kind <;> simp [Kind.matrixRows, Kind.matrix?, Matrix2.rows]

theorem fits_iff (h : g.WellFormed) : g.Fits ↔ (g.kind = .gphase → g.target = none) := by
  obtain ⟨hrows, hcolumns⟩ := g.matrixRows_size
  constructor
  · intro hf hk
    have hsize := hrows.symm.trans hf.rows
    rw [if_pos hk] at hsize
    cases ht : g.target with
    | none => rfl
    | some q =>
      rw [ht] at hsize
      simp [dimension] at hsize
  · intro hphase
    have hsize : (if g.kind = .gphase then 1 else 2) = dimension g.target.toList.length := by
      by_cases hk : g.kind = .gphase
      · rw [if_pos hk, hphase hk]
        rfl
      · obtain ⟨q, hq⟩ := Option.isSome_iff_exists.mp (h.target_or_phase.resolve_right hk)
        rw [if_neg hk, hq]
        rfl
    exact ⟨hrows.trans hsize, fun row hrow => (hcolumns row hrow).trans hsize⟩

variable {axes : List Qubit}

theorem exists_applyTo (hphase : g.kind = .gphase → g.target = none) (s : State α axes) :
    ∃ t, g.applyTo s = .ok t := by
  unfold applyTo
  split
  · exact ⟨_, rfl⟩
  · exact ⟨_, rfl⟩
  · exact ⟨_, rfl⟩
  · rename_i q ht hm
    have hk : g.kind = .gphase := by
      cases hk : g.kind <;> simp [hk, Kind.matrix?] at hm ⊢
    rw [hphase hk] at ht
    cases ht

theorem applyTo_targetedPhase (hk : g.kind = .gphase) (ht : g.target ≠ none) (s : State α axes) :
    g.applyTo s = .error .targetedPhase := by
  obtain ⟨q, hq⟩ := Option.ne_none_iff_exists'.mp ht
  have hm : g.kind.matrix? g.angle = none := by rw [hk]; rfl
  simp only [applyTo, hq, hm]

end Gate

/-! ## Sequences -/

namespace Sequence

variable {axes : List Qubit} {gs : List (Gate α)}

theorem exists_applyTo (h : ∀ g ∈ gs, g.kind = .gphase → g.target = none) (s : State α axes) :
    ∃ t, applyTo gs s = .ok t := by
  induction gs generalizing s with
  | nil => exact ⟨s, rfl⟩
  | cons g gs ih =>
    obtain ⟨hg, hgs⟩ := List.forall_mem_cons.mp h
    obtain ⟨t, ht⟩ := Gate.exists_applyTo hg s
    obtain ⟨u, hu⟩ := ih hgs t
    refine ⟨u, ?_⟩
    rw [applyTo, List.foldlM_cons, ht]
    exact hu

theorem applyTo_targetedPhase (h : ∃ g ∈ gs, g.kind = .gphase ∧ g.target ≠ none)
    (s : State α axes) : applyTo gs s = .error .targetedPhase := by
  induction gs generalizing s with
  | nil => simp at h
  | cons g gs ih =>
    rw [applyTo, List.foldlM_cons]
    by_cases hg : g.kind = .gphase ∧ g.target ≠ none
    · rw [Gate.applyTo_targetedPhase hg.1 hg.2]
      rfl
    · have hrest : ∃ g ∈ gs, g.kind = .gphase ∧ g.target ≠ none := by
        obtain ⟨f, hf, hphase⟩ := h
        rcases List.mem_cons.mp hf with rfl | hf
        · exact absurd hphase hg
        · exact ⟨f, hf, hphase⟩
      -- A gate before the targeted phase is applied, the others do not come up.
      obtain ⟨t, ht⟩ := Gate.exists_applyTo (fun hk => by_contra fun ht => hg ⟨hk, ht⟩) s
      rw [ht]
      exact ih hrest t

end Sequence

/-! ## Circuits -/

/-- **Simulation.** A circuit that comes up in a run has a state, with one amplitude for each of the
`2 ^ n` basis states, if the matrices of all its gates fit; otherwise the simulation fails. The only
gates that do not fit are global phases with a target. -/
theorem statevector_of_reached {threshold tolerance : α} {s : Session α}
    (h : s.Reached threshold tolerance) {n : Nat} {c : Circuit α}
    (hc : s.receivers[n]? = some (.circuit c)) :
    (∀ g ∈ c.gates, g.Fits ↔ (g.kind = .gphase → g.target = none)) ∧
      ((∀ g ∈ c.gates, g.Fits) →
        ∃ zs, c.statevector = .ok zs ∧ zs.length = 2 ^ c.qubits.length) ∧
      ((∃ g ∈ c.gates, ¬ g.Fits) → c.statevector = .error .targetedPhase) := by
  obtain ⟨ids, hs⟩ := h.sound
  have hsound : c.Sound (Qubit.Known ids) := hs.receiver_sound hc
  have hfits : ∀ g ∈ c.gates, g.Fits ↔ (g.kind = .gphase → g.target = none) := fun g hg =>
    Gate.fits_iff (hsound.gate_wellFormed g hg)
  refine ⟨hfits, fun hall => ?_, fun ⟨g, hg, hf⟩ => ?_⟩
  · obtain ⟨t, ht⟩ := Sequence.exists_applyTo (fun g hg => (hfits g hg).mp (hall g hg))
      (State.basis c.qubits 0)
    refine ⟨t.toList, ?_, ?_⟩
    · rw [Circuit.statevector, Circuit.applyTo, ht]
      rfl
    · rw [Tensor.length_toList, State.axes, List.length_reverse]
      rfl
  · have hphase : g.kind = .gphase ∧ g.target ≠ none := by
      rw [hfits g hg, Classical.not_imp] at hf
      exact hf
    rw [Circuit.statevector, Circuit.applyTo, Sequence.applyTo_targetedPhase ⟨g, hg, hphase⟩]
    rfl

/-- A circuit of one qubit, with a global phase on the given target. -/
def phaseScripts (target : Script.Ref ℝ) : List (Script ℝ) :=
  [.step none (some "c") (.createCircuit (.integer 1) (some "main")),
    .step (some "c") none (.append (.build (.text "gphase") target (.many []) (.number 0)))]

/-- Without a target the phase can be simulated. -/
theorem statevector_of_reached_phase :
    ∃ c : Circuit ℝ, ((Script.runAll (phaseScripts (.value .absent))).run
        (Session.start 0 0)).2.receivers[0]? = some (.circuit c) ∧
      (∀ g ∈ c.gates, g.Fits) ∧ ∃ zs, c.statevector = .ok zs ∧ zs.length = 2 := by
  have hrun : ((Script.runAll (phaseScripts (.value .absent))).run
      (Session.start 0 0)).2.receivers[0]? =
      some (.circuit ⟨"main", [⟨0, "qb_1"⟩], [⟨.gphase, none, [], 0⟩]⟩) := by
    rfl
  obtain ⟨hfits, hstate, -⟩ := statevector_of_reached
    (Session.Reached.start.runAll (phaseScripts (.value .absent))) hrun
  have hall : ∀ g ∈ [(⟨.gphase, none, [], 0⟩ : Gate ℝ)], g.Fits := fun g hg =>
    (hfits g hg).mpr fun _ => by rw [List.mem_singleton.mp hg]
  exact ⟨_, hrun, hall, hstate hall⟩

/-- With a target the circuit accepts the phase as well, and can not be simulated. -/
theorem statevector_targeted_phase : ¬ ∀ (s : Session ℝ) (n : ℕ) (c : Circuit ℝ), s.Reached 0 0 →
    s.receivers[n]? = some (.circuit c) →
      ∃ zs, c.statevector = .ok zs ∧ zs.length = 2 ^ c.qubits.length := by
  intro hall
  have hrun : ((Script.runAll (phaseScripts (.slot "c" 0))).run
      (Session.start 0 0)).2.receivers[0]? =
      some (.circuit ⟨"main", [⟨0, "qb_1"⟩], [⟨.gphase, some ⟨0, "qb_1"⟩, [], 0⟩]⟩) := by
    rfl
  obtain ⟨zs, hzs, -⟩ := hall _ 0 _
    (Session.Reached.start.runAll (phaseScripts (.slot "c" 0))) hrun
  cases hzs

end StateSynthesis
