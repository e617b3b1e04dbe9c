import StateSynthesis.Export
import StateSynthesis.Proofs.Entries
import StateSynthesis.Proofs.Resolution

/-!
Exported circuits, run by the library that they go to. What the library makes of an instruction is a
parameter, `Interpreter`, and that it follows the textbooks is assumed, `Interpreter.Standard`: the
usual matrices (`BaseGate.matrix?`) on the last operand, under the others as controls, with the
operands counted from the lowest bit. A gate has an instruction that does the same
(`exists_exported`), the global phases can be taken out of a sequence and added up modulo a turn
(`exp_globalPhases`), and so an exported circuit does what the simulator does. Main statement:
`exported_run`.
-/
namespace StateSynthesis

open Complex

/-! ## The library -/

/-- The matrix of a base gate with these parameters, if it takes as many. -/
noncomputable def BaseGate.matrix? : BaseGate → List ℝ → Option (Matrix (Fin 2) (Fin 2) ℂ)
  | rx, [θ] => some
    !![cos (θ / (2 : ℕ)), -I * sin (θ / (2 : ℕ)); -I * sin (θ / (2 : ℕ)), cos (θ / (2 : ℕ))]
  | ry, [θ] => some
    !![cos (θ / (2 : ℕ)), -sin (θ / (2 : ℕ)); sin (θ / (2 : ℕ)), cos (θ / (2 : ℕ))]
  | rz, [θ] => some !![exp (-(θ / (2 : ℕ) * I)), 0; 0, exp (θ / (2 : ℕ) * I)]
  | h, [] => some ((1 / √(2 : ℕ) : ℂ) • !![1, 1; 1, -1])
  | s, [] => some !![1, 0; 0, I]
  | sdg, [] => some !![1, 0; 0, -I]
  | x, [] => some !![0, 1; 1, 0]
  | p, [θ] => some !![1, 0; 0, exp (θ * I)]
  | _, _ => none

/-- What an instruction makes of the amplitudes of `n` qubits. -/
abbrev Interpreter := (n : ℕ) → Instruction ℝ → (Fin (2 ^ n) → ℂ) → Fin (2 ^ n) → ℂ

/-- On different qubits, the matrix of the base gate is applied to the last one where all others,
the controls, are one. The qubit `k` is the bit `k` of the number of an amplitude. -/
def Interpreter.Standard (act : Interpreter) : Prop :=
  ∀ (n : ℕ) (i : Instruction ℝ) (m : Matrix (Fin 2) (Fin 2) ℂ) (controls : List ℕ) (target : ℕ),
    i.base.matrix? i.parameters = some m → i.operands = controls ++ [target] →
    controls.length = i.controls → i.operands.Nodup → (∀ k ∈ controls, k < n) →
    ∀ (ht : target < n) (v : Fin (2 ^ n) → ℂ) (j : Fin (2 ^ n)),
      act n i v j = if ∀ k ∈ controls, j.1.testBit k = true then
          ∑ b, m (finTwoEquiv.symm (j.1.testBit target)) (finTwoEquiv.symm b) *
            v ⟨withBit target b j, withBit_lt ht b j.2⟩
        else v j

/-- The textbooks as a library: an instruction without a meaning is skipped. -/
noncomputable def Interpreter.textbook : Interpreter := fun n i v j =>
  match i.base.matrix? i.parameters, i.operands.getLast? with
  | some m, some target =>
    if ht : target < n then
      if ∀ k ∈ i.operands.dropLast, j.1.testBit k = true then
        ∑ b, m (finTwoEquiv.symm (j.1.testBit target)) (finTwoEquiv.symm b) *
          v ⟨withBit target b j, withBit_lt ht b j.2⟩
      else v j
    else v j
  | _, _ => v j

theorem Interpreter.textbook_standard : textbook.Standard := by
  intro n i m controls target hm ho _ _ _ ht v j
  simp only [textbook, hm, ho, List.getLast?_concat, List.dropLast_concat, dif_pos ht]

/-- The instructions one after the other, and the global phase. -/
noncomputable def Exported.run (act : Interpreter) {n : ℕ} (e : Exported ℝ)
    (v : Fin (2 ^ n) → ℂ) : Fin (2 ^ n) → ℂ :=
  exp (e.globalPhase * I) • e.instructions.foldl (fun w i => act n i w) v

/-- The instruction names the qubits of the gate by their places, and does what the gate does. -/
structure Gate.Counterpart (act : Interpreter) (qubits : List Qubit) (g : Gate ℝ)
    (i : Instruction ℝ) : Prop where
  operands_eq : i.operands.map (qubits[·]?) = g.qubits.map some
  act_eq : ∀ s t : State ℝ (State.axes qubits), g.applyTo s = .ok t →
    act qubits.length i (State.entries s) = State.entries t

/-! ## Global phases -/

theorem exp_wrap (x : ℝ) : exp ((Scalar.wrap x : ℝ) * I) = exp (x * I) := by
  have hturn : ((Scalar.wrap x : ℝ) : ℂ) * I =
      x * I - ⌊x / (Real.pi + Real.pi)⌋ * (2 * Real.pi * I) := by
    show ((x - (Real.pi + Real.pi) * ⌊x / (Real.pi + Real.pi)⌋ : ℝ) : ℂ) * I = _
    push_cast
    ring
  rw [hturn, exp_periodic.sub_int_mul_eq]

theorem Gate.act_smul (g : Gate ℝ) (z : ℂ) (ψ : Wave) : g.act (z • ψ) = z • g.act ψ := by
  funext bits
  cases ht : g.target with
  | none =>
    simp only [act_of_phase ht, Pi.smul_apply, smul_eq_mul]
    ring
  | some q =>
    simp only [act_of_target ht, Wave.steer, Pi.smul_apply, smul_eq_mul, Finset.mul_sum]
    exact Finset.sum_congr rfl fun b _ => mul_left_comm _ _ _

theorem Sequence.act_smul (gs : List (Gate ℝ)) (z : ℂ) (ψ : Wave) :
    act gs (z • ψ) = z • act gs ψ := by
  induction gs generalizing ψ with
  | nil => rfl
  | cons g gs ih => rw [act_cons, act_cons, Gate.act_smul, ih]

theorem Gate.act_of_isGlobalPhase {g : Gate ℝ} (h : g.isGlobalPhase = true)
    (hp : g.kind = .gphase → g.target = none) (ψ : Wave) : g.act ψ = exp (g.angle * I) • ψ := by
  obtain ⟨hk, hc⟩ : g.kind = .gphase ∧ g.controls = [] := by simpa [isGlobalPhase] using h
  funext bits
  simp [act_of_phase (hp hk), hc]

/-- Global phases can be taken out of a sequence and added up, wherever they stand. -/
theorem Sequence.exp_globalPhases {gs : List (Gate ℝ)}
    (hp : ∀ g ∈ gs, g.kind = .gphase → g.target = none) (t : ℝ) (ψ : Wave) :
    exp (((gs.filter Gate.isGlobalPhase).foldl (fun t g => Scalar.wrap (t + g.angle)) t : ℝ) * I) •
      act (gs.filter (!·.isGlobalPhase)) ψ = exp (t * I) • act gs ψ := by
  induction gs generalizing t ψ with
  | nil => rfl
  | cons g gs ih =>
    obtain ⟨hg, hgs⟩ := List.forall_mem_cons.mp hp
    cases hphase : g.isGlobalPhase with
    | true =>
      simp only [List.filter_cons, hphase, ↓reduceIte, Bool.not_true, Bool.false_eq_true,
        List.foldl_cons]
      rw [ih hgs, exp_wrap, exp_add_mul_I, act_cons, Gate.act_of_isGlobalPhase hphase hg, act_smul,
        smul_smul]
    | false =>
      simp only [List.filter_cons, hphase, ↓reduceIte, Bool.not_false, Bool.false_eq_true]
      rw [act_cons, act_cons, ih hgs]

/-! ## Instructions -/

theorem Qubit.getElem?_places {qubits qs : List Qubit} (h : ∀ q ∈ qs, q ∈ qubits) :
    (qs.map qubits.idxOf).map (qubits[·]?) = qs.map some := by
  rw [List.map_map]
  exact List.map_congr_left fun q hq => List.getElem?_idxOf (h q hq)

/-- What a library does on qubits of a circuit that are given by their places. -/
theorem Interpreter.Standard.act_places {act : Interpreter} (hact : act.Standard)
    {qubits cs : List Qubit} {q : Qubit} (hqs : ∀ c ∈ cs ++ [q], c ∈ qubits)
    (hn : (cs ++ [q]).Nodup) (hlt : qubits.idxOf q < qubits.length) {b : BaseGate} {ps : List ℝ}
    {m : Matrix (Fin 2) (Fin 2) ℂ} (hm : b.matrix? ps = some m) (v : Fin (2 ^ qubits.length) → ℂ)
    (j : Fin (2 ^ qubits.length)) :
    act qubits.length ⟨b, cs.length, ps, (cs ++ [q]).map qubits.idxOf⟩ v j =
      if ∀ c ∈ cs, j.1.testBit (qubits.idxOf c) = true then
        ∑ x, m (finTwoEquiv.symm (j.1.testBit (qubits.idxOf q))) (finTwoEquiv.symm x) *
          v ⟨withBit (qubits.idxOf q) x j, withBit_lt hlt x j.2⟩
      else v j := by
  have hplaces : ((cs ++ [q]).map qubits.idxOf).Nodup :=
    hn.map_on fun c hc d _ e => (List.idxOf_inj (hqs c hc)).mp e
  have hcontrols : ∀ k ∈ cs.map qubits.idxOf, k < qubits.length := List.forall_mem_map.mpr
    fun c hc => List.idxOf_lt_length_of_mem (hqs c (List.mem_append_left _ hc))
  rw [hact qubits.length _ m (cs.map qubits.idxOf) (qubits.idxOf q) hm (by simp) (by simp) hplaces
    hcontrols hlt]
  simp only [List.forall_mem_map]

namespace Gate

variable {act : Interpreter} {qubits : List Qubit} {g : Gate ℝ}

theorem qubits_nodup (h : g.WellFormed) : g.qubits.Nodup := by
  refine List.nodup_append.mpr ⟨h.controls_nodup, by cases g.target <;> simp, fun c hc q hq e => ?_⟩
  exact h.target_free q (Option.mem_toList.mp hq) (e ▸ hc)

/-- A kind with a target has a base gate with the same matrix. -/
theorem exists_base (hk : g.kind ≠ .gphase) :
    ∃ b ps m, g.base = .ok (b, ps) ∧ b.matrix? ps = some m ∧
      ∀ x y, m (finTwoEquiv.symm x) (finTwoEquiv.symm y) = g.kind.unitary g.angle x y := by
  cases hg : g.kind with
  | gphase => exact absurd hg hk
  | _ =>
    refine ⟨_, _, _, by simp only [base, hg]; rfl, rfl, fun x y => ?_⟩
    cases x <;> cases y <;>
      simp [Kind.unitary, Kind.matrix?, Matrix2.toMatrix, finTwoEquiv]

theorem counterpart_of_target (hact : act.Standard) (hn : qubits.Nodup) (h : g.On qubits)
    {q : Qubit} (ht : g.target = some q) :
    ∃ i, g.exported qubits = .ok i ∧ g.Counterpart act qubits i := by
  have hk : g.kind ≠ .gphase := fun e => by simp [h.target_eq_none_iff.mpr e] at ht
  have hqs : g.qubits = g.controls ++ [q] := by simp [Gate.qubits, ht]
  obtain ⟨b, ps, m, hb, hm, hu⟩ := exists_base hk
  have hmem := hqs ▸ h.qubits_mem
  have hlt : qubits.idxOf q < qubits.length := List.idxOf_lt_length_of_mem (hmem q (by simp))
  refine ⟨⟨b, g.controls.length, ps, g.qubits.map qubits.idxOf⟩, ?_,
    Qubit.getElem?_places h.qubits_mem, fun s t hst => ?_⟩
  · unfold exported
    split
    · exact absurd ‹_› hk
    · rw [hb]
      rfl
  · funext j
    rw [hqs, hact.act_places hmem (hqs ▸ qubits_nodup h.toWellFormed) hlt hm,
      entries_of_target hn h ht hlt hst]
    simp only [hu]

/-- A phase under controls is a phase gate on the last of them, under the others. -/
theorem counterpart_of_phase (hact : act.Standard) (hn : qubits.Nodup) (h : g.On qubits)
    (ht : g.target = none) {cs : List Qubit} {q : Qubit} (hcs : g.controls = cs ++ [q]) :
    ∃ i, g.exported qubits = .ok i ∧ g.Counterpart act qubits i := by
  have hk : g.kind = .gphase := h.target_eq_none_iff.mp ht
  have hqs : g.qubits = cs ++ [q] := by simp [Gate.qubits, ht, hcs]
  have hmem := hqs ▸ h.qubits_mem
  have hlt : qubits.idxOf q < qubits.length := List.idxOf_lt_length_of_mem (hmem q (by simp))
  refine ⟨⟨.p, cs.length, [g.angle], g.qubits.map qubits.idxOf⟩, ?_,
    Qubit.getElem?_places h.qubits_mem, fun s t hst => ?_⟩
  · simp [exported, hk, hqs, hcs]
  · funext j
    have hself := withBit_testBit (qubits.idxOf q) j
    have hall : (∀ c ∈ cs ++ [q], j.1.testBit (qubits.idxOf c) = true) ↔
        (∀ c ∈ cs, j.1.testBit (qubits.idxOf c) = true) ∧ j.1.testBit (qubits.idxOf q) = true := by
      simp [or_imp, forall_and]
    rw [hqs, hact.act_places hmem (hqs ▸ qubits_nodup h.toWellFormed) hlt rfl,
      entries_of_phase hn h ht hst, hcs]
    simp only [hall]
    -- The matrix of the phase gate is diagonal.
    by_cases hc : ∀ c ∈ cs, j.1.testBit (qubits.idxOf c) = true
    · simp only [if_pos hc, and_iff_right hc]
      cases hb : j.1.testBit (qubits.idxOf q) <;> rw [hb] at hself <;> simp [hself, finTwoEquiv]
    · rw [if_neg hc, if_neg fun ha => hc ha.1, one_mul]

theorem exists_exported (hact : act.Standard) (hn : qubits.Nodup) (h : g.On qubits)
    (hp : g.isGlobalPhase = false) :
    ∃ i, g.exported qubits = .ok i ∧ g.Counterpart act qubits i := by
  cases ht : g.target with
  | none =>
    have hk : g.kind = .gphase := h.target_eq_none_iff.mp ht
    have hne : g.controls ≠ [] := by simpa [isGlobalPhase, hk] using hp
    exact counterpart_of_phase hact hn h ht (List.dropLast_append_getLast hne).symm
  | some q => exact counterpart_of_target hact hn h ht

end Gate

/-- Instructions that do what the gates do, one by one, do it as a whole. -/
theorem Sequence.foldl_counterparts {act : Interpreter} {qubits : List Qubit} {gs : List (Gate ℝ)}
    {is : List (Instruction ℝ)} (h : List.Forall₂ (Gate.Counterpart act qubits) gs is)
    {s t : State ℝ (State.axes qubits)} (ht : applyTo gs s = .ok t) :
    is.foldl (fun v i => act qubits.length i v) (State.entries s) = State.entries t := by
  induction h generalizing s with
  | nil =>
    obtain rfl := Except.ok.inj ht
    rfl
  | @cons g i gs is hi _ ih =>
    obtain ⟨u, hu, hrest⟩ := bind_eq_ok_iff.mp ht
    rw [List.foldl_cons, hi.act_eq s u hu]
    exact ih hrest

/-! ## The result -/

/-- **Export.** A circuit whose global phases have no target is exported: its qubits become the
registers in their order, and the gates that are no uncontrolled global phases become instructions
one by one, each on the places of its qubits. A library that follows the textbooks takes the
amplitudes of every state to those that the simulator takes them to. -/
theorem exported_run {act : Interpreter} (hact : act.Standard) {c : Circuit ℝ} (hc : c.WellFormed)
    (hp : ∀ g ∈ c.gates, g.kind = .gphase → g.target = none) :
    ∃ e, c.exported = .ok e ∧ e.registers = c.qubits.map Qubit.identifier ∧
      List.Forall₂ (Gate.Counterpart act c.qubits) (c.gates.filter (!·.isGlobalPhase))
        e.instructions ∧
      ∀ s : State ℝ (State.axes c.qubits), ∃ t, Sequence.applyTo c.gates s = .ok t ∧
        State.entries t = e.run act (State.entries s) := by
  have hn := hc.qubits_nodup
  have hon : Sequence.On c.qubits c.gates := fun g hg =>
    ⟨⟨hc.gate_wellFormed g hg, hp g hg⟩, hc.gate_qubits g hg⟩
  have hfilter : Sequence.On c.qubits (c.gates.filter (!·.isGlobalPhase)) := fun g hg =>
    hon g (List.mem_of_mem_filter hg)
  have hcounterpart : ∀ g ∈ c.gates.filter (!·.isGlobalPhase),
      ∃ i, g.exported c.qubits = .ok i ∧ g.Counterpart act c.qubits i := fun g hg =>
    Gate.exists_exported hact hn (hfilter g hg) (by simpa using (List.mem_filter.mp hg).2)
  obtain ⟨is, his⟩ := exists_forall₂ hcounterpart
  have hexported : c.exported = .ok ⟨c.qubits.map Qubit.identifier, c.globalPhase, is⟩ :=
    bind_eq_ok_iff.mpr ⟨is, mapM_eq_ok_iff.mpr (his.imp fun _ _ h => h.1), rfl⟩
  have hcounterparts := his.imp fun _ _ h => h.2
  refine ⟨_, hexported, rfl, hcounterparts, fun s => ?_⟩
  obtain ⟨t, ht, hw⟩ := Sequence.realises_act hon c.qubits hn (fun _ hq => hq) s
  obtain ⟨u, hu, hw'⟩ := Sequence.realises_act hfilter c.qubits hn (fun _ hq => hq) s
  refine ⟨t, ht, ?_⟩
  have hphases := Sequence.exp_globalPhases hp 0 (State.wave s)
  rw [ofReal_zero, zero_mul, exp_zero, one_smul, ← hw, ← hw', ← zero_real] at hphases
  funext j
  calc State.entries t j
      = State.wave t (Assignment.ofIndex c.qubits j) := State.entries_eq_wave hn t j
    _ = exp (c.globalPhase * I) * State.wave u (Assignment.ofIndex c.qubits j) :=
        (congrFun hphases _).symm
    _ = exp (c.globalPhase * I) * State.entries u j := by rw [State.entries_eq_wave hn]
    _ = _ := by rw [← Sequence.foldl_counterparts hcounterparts hu]; rfl

/-- Two global phases around a controlled rotation, and a phase under two controls. -/
theorem exported_run_phases :
    ∃ e, (⟨"main", [⟨0, "a"⟩, ⟨1, "b"⟩], [Gate.gphase 5 [],
          (Gate.rz (1 / 3) ⟨0, "a"⟩).withControls [⟨1, "b"⟩], Gate.gphase (1 / 2) [],
          Gate.gphase (1 / 4) [⟨1, "b"⟩, ⟨0, "a"⟩]]⟩ : Circuit ℝ).exported = .ok e ∧
      e.registers = ["a", "b"] ∧ e.instructions.length = 2 ∧
      ∃ t, Sequence.applyTo [Gate.gphase 5 [],
          (Gate.rz (1 / 3) ⟨0, "a"⟩).withControls [⟨1, "b"⟩], Gate.gphase (1 / 2) [],
          Gate.gphase (1 / 4) [⟨1, "b"⟩, ⟨0, "a"⟩]]
          (State.basis (α := ℝ) [⟨0, "a"⟩, ⟨1, "b"⟩] 3) = .ok t ∧
        State.entries t = e.run Interpreter.textbook
          (State.entries (State.basis (α := ℝ) [⟨0, "a"⟩, ⟨1, "b"⟩] 3)) := by
  have hrz : ((Gate.rz (1 / 3 : ℝ) ⟨0, "a"⟩).withControls [⟨1, "b"⟩]).On
      ([⟨1, "b"⟩] ++ [⟨0, "a"⟩]) :=
    (Gate.rz_on _ (List.mem_singleton_self _)).withControls (by decide)
  have hon : Sequence.On [⟨0, "a"⟩, ⟨1, "b"⟩] [Gate.gphase (5 : ℝ) [],
      (Gate.rz (1 / 3) ⟨0, "a"⟩).withControls [⟨1, "b"⟩], Gate.gphase (1 / 2) [],
      Gate.gphase (1 / 4) [⟨1, "b"⟩, ⟨0, "a"⟩]] :=
    Sequence.on_cons.mpr ⟨Gate.gphase_on _ List.nodup_nil (by simp),
      Sequence.on_cons.mpr ⟨hrz.mono (by decide),
      Sequence.on_cons.mpr ⟨Gate.gphase_on _ List.nodup_nil (by simp),
      Sequence.on_cons.mpr ⟨Gate.gphase_on _ (by decide) (by simp), Sequence.on_nil _⟩⟩⟩⟩
  obtain ⟨e, he, hregisters, hinstructions, hrun⟩ := exported_run Interpreter.textbook_standard
    (c := ⟨"main", [⟨0, "a"⟩, ⟨1, "b"⟩], _⟩)
    ⟨by decide, fun g hg => (hon g hg).toWellFormed, fun g hg => (hon g hg).qubits_mem⟩
    fun g hg => (hon g hg).phase_untargeted
  exact ⟨e, he, hregisters, hinstructions.length_eq.symm, hrun _⟩

end StateSynthesis
