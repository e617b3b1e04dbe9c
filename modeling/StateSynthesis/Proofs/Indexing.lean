import StateSynthesis.Proofs.Slicing

/-!
Gates on vectors by index. Bit `i` of an index belongs to the `i`-th qubit. Where the bits of all
controls are one, a gate multiplies the entry by its phase, or mixes the two entries whose indices
differ in the bit of its target; elsewhere it leaves the vector alone (`Gate.onVector`). The
simulator does this to every vector, and so does the work on slices of an array (`Gate.sliced`).
Main statement: `applyTo_onVector`.
-/
namespace StateSynthesis

open Complex Assignment

/-- The entry of a vector at an index. -/
noncomputable def Statevector.entry (v : List (Cartesian ℝ)) (x : ℕ) : ℂ :=
  (v.getD x Cartesian.zero).toComplex

open Statevector

/-- What the gate makes of a vector, entry by entry. -/
noncomputable def Gate.onVector (qubits : List Qubit) (g : Gate ℝ) (v : ℕ → ℂ) (x : ℕ) : ℂ :=
  if ∃ c ∈ g.controls, x.testBit (qubits.idxOf c) = false then v x
  else match g.target with
    | none => exp (g.angle * I) * v x
    | some q =>
      let i := qubits.idxOf q
      let u := g.kind.entry g.angle (x.testBit i)
      u false * v (withBit i false x) + u true * v (withBit i true x)

variable {qubits : List Qubit}

/-! ## Vectors and waves -/

theorem Axial.number_map (axes : List Qubit) (bits : Assignment) :
    number (axes.map bits) = index axes.reverse bits := by
  induction axes with
  | nil => rfl
  | cons q axes ih =>
    rw [index_reverse_cons, ← ih, List.map_cons, number, List.length_map, add_comm, mul_comm]

/-- Coordinates are the bits of an assignment. -/
theorem Axial.exists_map {axes : List Qubit} (hn : axes.Nodup) {is : List Bool}
    (his : is.length = axes.length) : ∃ bits : Assignment, axes.map bits = is := by
  refine ⟨fun q => is.getD (axes.idxOf q) false, List.ext_getElem ?_ ?_⟩
  · rw [List.length_map, his]
  · intro k _ hk
    rw [List.getElem_map, hn.idxOf_getElem, List.getD_eq_getElem _ _ hk]

namespace State

theorem entry_toList (s : State ℝ (axes qubits)) (bits : Assignment) :
    entry (Tensor.toList s) (index qubits bits) = wave s bits := by
  have h := Tensor.getElem?_toList s bits
  rw [show (axes qubits).reverse = qubits from List.reverse_reverse _] at h
  rw [entry, List.getD_eq_getElem?_getD, h]
  rfl

/-- Every vector with one entry for each basis state is a state. -/
theorem exists_ofEntries {v : List (Cartesian ℝ)} (hv : v.length = 2 ^ qubits.length) :
    ∃ s, ofEntries qubits v = .ok s ∧ Tensor.toList s = v := by
  refine ⟨_, if_pos hv, Tensor.toList_ofList _ _ v ?_⟩
  rw [hv, axes, List.length_reverse]
  rfl

end State

/-- Setting the bit of a qubit sets the bit of the number. -/
theorem Assignment.index_update_of_mem (hn : qubits.Nodup) {q : Qubit} (hq : q ∈ qubits)
    (bits : Assignment) (b : Bool) : index qubits (Function.update bits q b) =
      withBit (qubits.idxOf q) b (index qubits bits) := by
  have hi : qubits.idxOf q < qubits.length := List.idxOf_lt_length_of_mem hq
  rw [← index_ofIndex hn (withBit_lt hi b (index_lt qubits bits))]
  refine index_congr fun r hr => ?_
  rw [ofIndex_withBit hq]
  by_cases hrq : r = q
  · rw [hrq, Function.update_self, Function.update_self]
  · rw [Function.update_of_ne hrq, Function.update_of_ne hrq, ofIndex, testBit_index hr]

/-- The action on the wave of a vector is the action on the vector. -/
theorem Gate.act_ofIndex (hn : qubits.Nodup) {g : Gate ℝ} (h : g.On qubits) (v : ℕ → ℂ) {x : ℕ}
    (hx : x < 2 ^ qubits.length) :
    g.act (fun bits => v (index qubits bits)) (ofIndex qubits x) = g.onVector qubits v x := by
  have hself : index qubits (ofIndex qubits x) = x := index_ofIndex hn hx
  have hcontrols : (∀ c ∈ g.controls, ofIndex qubits x c = true) ↔
      ¬ ∃ c ∈ g.controls, x.testBit (qubits.idxOf c) = false := by
    simp [ofIndex]
  by_cases hb : ∃ c ∈ g.controls, x.testBit (qubits.idxOf c) = false
  · rw [onVector, if_pos hb, act, if_neg (not_not_intro hb ∘ hcontrols.mp), hself]
  · rw [onVector, if_neg hb, act, if_pos (hcontrols.mpr hb)]
    cases ht : g.target with
    | none => simp only [hself]
    | some q =>
      have hk : g.kind ≠ .gphase := fun e => by simp [h.target_eq_none_iff.mpr e] at ht
      have hq : q ∈ qubits := h.qubits_mem q (by simp [Gate.qubits, ht])
      simp only [index_update_of_mem hn hq, hself, Kind.unitary_eq_entry hk, Fintype.sum_bool]
      exact add_comm _ _

/-- The action does not depend on the order of the controls. -/
theorem Gate.act_perm {g : Gate ℝ} {cs : List Qubit} (hp : cs.Perm g.controls) (ψ : Wave) :
    ({ g with controls := cs } : Gate ℝ).act ψ = g.act ψ := by
  funext bits
  simp only [act, hp.mem_iff]

theorem Gate.On.perm {g : Gate ℝ} {cs : List Qubit} (h : g.On qubits) (hp : cs.Perm g.controls) :
    ({ g with controls := cs } : Gate ℝ).On qubits where
  target_or_phase := h.target_or_phase
  target_free := fun q hq hc => h.target_free q hq (hp.mem_iff.mp hc)
  controls_nodup := hp.nodup_iff.mpr h.controls_nodup
  angle_eq := h.angle_eq
  phase_untargeted := h.phase_untargeted
  qubits_mem := fun q hq => h.qubits_mem q ((hp.append_right _).mem_iff.mp hq)

/-! ## The result -/

/-- **Gates by index.** On every vector with one entry for each basis state, the simulator leaves
the entries alone where the bit of some control is zero. The others it multiplies by the phase of a
gate without a target, and otherwise mixes with the entry at the other bit of the target, by the
row of the matrix for the bit that the target has. On the vector as an array with one axis for each
qubit this is the work on the slice of the controls. The order of the controls does not matter. -/
theorem applyTo_onVector (hn : qubits.Nodup) {g : Gate ℝ} (h : g.On qubits)
    {v : List (Cartesian ℝ)} (hv : v.length = 2 ^ qubits.length) :
    ∃ s t, State.ofEntries qubits v = .ok s ∧ g.applyTo s = .ok t ∧
      (Tensor.toList t).length = 2 ^ qubits.length ∧
      (∀ x < 2 ^ qubits.length, entry (Tensor.toList t) x = g.onVector qubits (entry v) x) ∧
      (∀ is : List Bool, is.length = qubits.length →
        Axial.ofVector (entry (Tensor.toList t)) is =
          g.sliced qubits (Axial.ofVector (entry v)) is) ∧
      ∀ cs : List Qubit, cs.Perm g.controls →
        ({ g with controls := cs } : Gate ℝ).applyTo s = .ok t := by
  obtain ⟨s, hs, hlist⟩ := State.exists_ofEntries hv
  have hsum (g' : Gate ℝ) (h' : g'.On qubits) :
      ∃ t, g'.applyTo s = .ok t ∧ State.wave t = g'.act (State.wave s) :=
    Gate.applyTo_wave (State.nodup_axes hn) (h'.mono fun _ hq => State.mem_axes.mpr hq) s
  obtain ⟨t, ht, hw⟩ := hsum g h
  have hwave : State.wave s = fun bits => entry v (index qubits bits) :=
    funext fun bits => by rw [← State.entry_toList, hlist]
  refine ⟨s, t, hs, ht, ?_, fun x hx => ?_, fun is his => ?_, fun cs hcs => ?_⟩
  · rw [Tensor.length_toList, State.axes, List.length_reverse]
    rfl
  · rw [← index_ofIndex hn hx, State.entry_toList, hw, hwave, index_ofIndex hn hx,
      Gate.act_ofIndex hn h _ hx]
  · obtain ⟨bits, rfl⟩ := Axial.exists_map (State.nodup_axes hn)
      (his.trans (List.length_reverse).symm)
    have hvector (u : ℕ → ℂ) (bits : Assignment) :
        Axial.ofVector u ((State.axes qubits).map bits) = u (index qubits bits) := by
      rw [Axial.ofVector, Axial.number_map, State.axes, List.reverse_reverse]
    rw [hvector, State.entry_toList, hw, hwave, Gate.sliced_map hn h]
    simp only [hvector]
  · obtain ⟨u, hu, hw'⟩ := hsum _ (h.perm hcs)
    have hsame : State.wave u = State.wave t := by rw [hw', hw, Gate.act_perm hcs]
    rw [hu, State.wave_injective (State.nodup_axes hn) hsame]

/-- A flip whose controls stand on both sides of its target. -/
theorem applyTo_onVector_between : ∃ s t,
    State.ofEntries [⟨0, "a"⟩, ⟨1, "b"⟩, ⟨2, "c"⟩]
      [⟨0, 0⟩, ⟨1, 0⟩, ⟨2, 0⟩, ⟨3, 0⟩, ⟨4, 0⟩, ⟨5, 0⟩, ⟨6, 0⟩, ⟨7, 0⟩] = .ok s ∧
    (Gate.x (α := ℝ) ⟨1, "b"⟩ [⟨2, "c"⟩, ⟨0, "a"⟩]).applyTo s = .ok t ∧
    (Gate.x (α := ℝ) ⟨1, "b"⟩ [⟨0, "a"⟩, ⟨2, "c"⟩]).applyTo s = .ok t ∧
    entry (Tensor.toList t) 5 = 7 ∧ entry (Tensor.toList t) 4 = 4 := by
  have hn : [(⟨0, "a"⟩ : Qubit), ⟨1, "b"⟩, ⟨2, "c"⟩].Nodup := by decide
  have hx : (Gate.x (α := ℝ) ⟨1, "b"⟩ [⟨2, "c"⟩, ⟨0, "a"⟩]).On
      [⟨0, "a"⟩, ⟨1, "b"⟩, ⟨2, "c"⟩] := Gate.x_on (by decide) (by decide)
  have hv : ([⟨0, 0⟩, ⟨1, 0⟩, ⟨2, 0⟩, ⟨3, 0⟩, ⟨4, 0⟩, ⟨5, 0⟩, ⟨6, 0⟩, ⟨7, 0⟩] :
      List (Cartesian ℝ)).length = 2 ^ [(⟨0, "a"⟩ : Qubit), ⟨1, "b"⟩, ⟨2, "c"⟩].length := rfl
  obtain ⟨s, t, hs, ht, -, hentry, -, hperm⟩ := applyTo_onVector hn hx hv
  have ha : [(⟨0, "a"⟩ : Qubit), ⟨1, "b"⟩, ⟨2, "c"⟩].idxOf ⟨0, "a"⟩ = 0 := by decide
  have hb : [(⟨0, "a"⟩ : Qubit), ⟨1, "b"⟩, ⟨2, "c"⟩].idxOf ⟨1, "b"⟩ = 1 := by decide
  have hc : [(⟨0, "a"⟩ : Qubit), ⟨1, "b"⟩, ⟨2, "c"⟩].idxOf ⟨2, "c"⟩ = 2 := by decide
  have hreal (x : ℝ) : (⟨x, 0⟩ : Cartesian ℝ).toComplex = x := rfl
  refine ⟨s, t, hs, ht, hperm _ (List.Perm.swap _ _ []), ?_, ?_⟩
  · rw [hentry 5 (by decide)]
    simp [Gate.onVector, Gate.x, ha, hb, hc, Kind.entry, Kind.matrixRows, Kind.matrix?,
      Matrix2.rows, entry, withBit, Nat.testBit, hreal]
  · rw [hentry 4 (by decide)]
    simp [Gate.onVector, Gate.x, ha, hc, entry, Nat.testBit, hreal]

end StateSynthesis
