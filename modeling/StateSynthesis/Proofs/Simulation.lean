import StateSynthesis.Proofs.Wave
import StateSynthesis.Statevector.Simulation

/-!
The simulator on tensors and the action on waves. The entry of a tensor at an assignment is the one
at the number that the qubits hold (`getElem?_toList`, `get_ofList`). A gate that can be simulated
is applied without a fault and does to the entries what it does to the wave (`applyTo_wave`), and so
does a sequence (`realises_act`). The inverse sequence takes every state back (`inverse_undoes`).
-/
namespace StateSynthesis

open Assignment

namespace Tensor

variable {β : Type}

/-! ## Entries -/

theorem get_update {axes : List Qubit} {q : Qubit} (h : q ∉ axes) (t : Tensor β axes)
    (bits : Assignment) (b : Bool) : t.get (Function.update bits q b) = t.get bits := by
  induction axes with
  | nil => rfl
  | cons r axes ih =>
    simp only [List.mem_cons, not_or] at h
    have hr : Function.update bits q b r = bits r := Function.update_of_ne (Ne.symm h.1) _ _
    simp only [get, hr, ih h.2]

theorem eq_of_get {axes : List Qubit} (hn : axes.Nodup) {t u : Tensor β axes}
    (h : ∀ bits, t.get bits = u.get bits) : t = u := by
  induction axes with
  | nil => exact h fun _ => false
  | cons q axes ih =>
    obtain ⟨hq, hn⟩ := List.nodup_cons.mp hn
    have hhalf (b : Bool) (bits : Assignment) := h (Function.update bits q b)
    simp only [get, Function.update_self, get_update hq] at hhalf
    apply Prod.ext
    · exact ih hn (hhalf false)
    · exact ih hn (hhalf true)

theorem getElem?_toList {axes : List Qubit} (t : Tensor β axes) (bits : Assignment) :
    t.toList[index axes.reverse bits]? = some (t.get bits) := by
  induction axes with
  | nil => rfl
  | cons q axes ih =>
    have hl : (toList (r := axes) t.1).length = 2 ^ axes.length := length_toList _
    have hi := index_lt axes.reverse bits
    rw [List.length_reverse] at hi
    rw [index_reverse_cons]
    simp only [toList, get]
    cases hb : bits q
    · rw [Bool.toNat_false, Nat.mul_zero, Nat.add_zero, List.getElem?_append_left (by omega)]
      exact ih t.1
    · rw [Bool.toNat_true, Nat.mul_one, List.getElem?_append_right (by omega), hl,
        Nat.add_sub_cancel]
      exact ih t.2

theorem get_ofList (fill : β) (axes : List Qubit) (xs : List β) (bits : Assignment) :
    (ofList fill axes xs).get bits = xs.getD (index axes.reverse bits) fill := by
  induction axes generalizing xs with
  | nil => cases xs <;> rfl
  | cons q axes ih =>
    have hi := index_lt axes.reverse bits
    rw [List.length_reverse] at hi
    rw [index_reverse_cons]
    simp only [ofList, get, ih, dimension_eq_pow, List.getD_eq_getElem?_getD]
    cases hb : bits q
    · simp [List.getElem?_take_of_lt hi]
    · simp [List.getElem?_drop, Nat.add_comm]

/-! ## The operations of the simulator -/

theorem get_mapUnder (cs : List Qubit) (f : β → β) {axes : List Qubit} (t : Tensor β axes)
    (bits : Assignment) : (t.mapUnder cs f).get bits =
      if ∀ q ∈ axes, q ∈ cs → bits q = true then f (t.get bits) else t.get bits := by
  induction axes with
  | nil => simp [mapUnder, get]
  | cons q axes ih =>
    simp only [mapUnder, get, List.forall_mem_cons]
    cases hb : bits q
    · by_cases hq : q ∈ cs <;> simp [hq, ih]
    · simp [ih]

theorem get_pairUnder (cs : List Qubit) (f : β → β → β × β) {axes : List Qubit}
    (t u : Tensor β axes) (bits : Assignment) :
    ((t.pairUnder cs f u).1.get bits, (t.pairUnder cs f u).2.get bits) =
      if ∀ q ∈ axes, q ∈ cs → bits q = true then f (t.get bits) (u.get bits)
      else (t.get bits, u.get bits) := by
  induction axes with
  | nil => simp [pairUnder, get]
  | cons q axes ih =>
    simp only [pairUnder, get, List.forall_mem_cons]
    cases hb : bits q
    · by_cases hq : q ∈ cs <;> simp [hq, ih]
    · simp [ih]

theorem get_onTarget {cs : List Qubit} {target : Qubit} (f : β → β → β × β) {axes : List Qubit}
    (hn : axes.Nodup) (ht : target ∈ axes) (hf : target ∉ cs) (t : Tensor β axes)
    (bits : Assignment) : (t.onTarget cs target f).get bits =
      if ∀ q ∈ axes, q ∈ cs → bits q = true then
        let p := f (t.get (Function.update bits target false))
          (t.get (Function.update bits target true))
        if bits target then p.2 else p.1
      else t.get bits := by
  induction axes with
  | nil => simp at ht
  | cons q axes ih =>
    obtain ⟨hq, hn⟩ := List.nodup_cons.mp hn
    by_cases he : q = target
    · subst he
      have hp := get_pairUnder cs f t.1 t.2 bits
      rw [Prod.ext_iff] at hp
      simp only [onTarget, ↓reduceIte, get, List.forall_mem_cons, hf, Function.update_self,
        get_update hq, false_implies, true_and, Bool.false_eq_true] at hp ⊢
      cases hb : bits q
      · rw [if_neg Bool.false_ne_true, hp.1]
        split <;> simp
      · rw [if_pos rfl, hp.2]
        split <;> simp
    · have ht' : target ∈ axes := (List.mem_cons.mp ht).resolve_left (Ne.symm he)
      have hu (b : Bool) : Function.update bits target b q = bits q := Function.update_of_ne he _ _
      simp only [onTarget, he, ↓reduceIte, get, List.forall_mem_cons, hu]
      cases hb : bits q
      · by_cases hc : q ∈ cs <;> simp [hc, ih hn ht']
      · simp [ih hn ht']

end Tensor

/-! ## Waves of states -/

namespace State

def wave {axes : List Qubit} (s : State ℝ axes) : Wave := fun bits => (Tensor.get s bits).toComplex

theorem wave_injective {axes : List Qubit} (hn : axes.Nodup) :
    Function.Injective (@wave axes) := by
  intro s t h
  exact Tensor.eq_of_get hn fun bits => Cartesian.toComplex_injective (congrFun h bits)

theorem mem_axes {qubits : List Qubit} {q : Qubit} : q ∈ axes qubits ↔ q ∈ qubits :=
  List.mem_reverse

theorem nodup_axes {qubits : List Qubit} (h : qubits.Nodup) : (axes qubits).Nodup :=
  List.nodup_reverse.mpr h

theorem wave_basis (qubits : List Qubit) (j : ℕ) (bits : Assignment) :
    wave (basis (α := ℝ) qubits j) bits = if index qubits bits = j then 1 else 0 := by
  have hi := index_lt qubits bits
  simp only [wave, basis, Tensor.get_ofList, axes, List.reverse_reverse, dimension_eq_pow]
  rw [List.getD_eq_getElem?_getD, List.getElem?_map, List.getElem?_range hi]
  by_cases hj : index qubits bits = j <;> simp [hj]

/-- The entries of a state in order. -/
theorem getD_toList_wave {qubits : List Qubit} (hn : qubits.Nodup) (s : State ℝ (axes qubits))
    {j : ℕ} (hj : j < 2 ^ qubits.length) :
    ((Tensor.toList s).getD j Cartesian.zero).toComplex = wave s (ofIndex qubits j) := by
  have h := Tensor.getElem?_toList s (ofIndex qubits j)
  rw [show (axes qubits).reverse = qubits from List.reverse_reverse _, index_ofIndex hn hj] at h
  rw [List.getD_eq_getElem?_getD, h]
  rfl

end State

/-! ## The simulator acts on waves -/

/-- A gate whose qubits are all there is applied without a fault. -/
theorem Gate.applyTo_wave {axes : List Qubit} (hn : axes.Nodup) {g : Gate ℝ} (h : g.On axes)
    (s : State ℝ axes) : ∃ t, g.applyTo s = .ok t ∧ State.wave t = g.act (State.wave s) := by
  have hcs (bits : Assignment) : (∀ q ∈ axes, q ∈ g.controls → bits q = true) ↔
      ∀ c ∈ g.controls, bits c = true :=
    ⟨fun hb c hc => hb c (h.qubits_mem c (List.mem_append_left _ hc)) hc, fun hb q _ hq => hb q hq⟩
  cases ht : g.target with
  | none =>
    have hk : g.kind = .gphase := h.target_eq_none_iff.mp ht
    refine ⟨Tensor.mapUnder g.controls (· * Kind.phaseFactor g.angle) s, ?_, ?_⟩
    · simp only [applyTo, ht, hk, Kind.matrix?]
    funext bits
    rw [act_of_phase ht]
    simp only [State.wave, Tensor.get_mapUnder, hcs]
    split
    · simp [Kind.phaseFactor, mul_comm]
    · rw [one_mul]
  | some q =>
    have hk : g.kind ≠ .gphase := fun e => by simp [h.target_eq_none_iff.mpr e] at ht
    obtain ⟨m, hm⟩ : ∃ m, g.kind.matrix? g.angle = some m := by
      cases hg : g.kind <;> first | exact absurd hg hk | exact ⟨_, rfl⟩
    have hmem : q ∈ axes := h.qubits_mem q (by simp [qubits, ht])
    refine ⟨Tensor.onTarget g.controls q m.apply s, by simp only [applyTo, ht, hm], ?_⟩
    have hu : g.kind.unitary g.angle = m.toMatrix := by simp only [Kind.unitary, hm]
    funext bits
    simp only [State.wave, act, ht, hu, Tensor.get_onTarget _ hn hmem (h.target_free q ht), hcs]
    split
    · have hp := m.toComplex_apply (Tensor.get s (Function.update bits q false))
        (Tensor.get s (Function.update bits q true))
      cases hb : bits q
      · simp [hp.1, add_comm]
      · simp [hp.2, add_comm]
    · rfl

namespace Sequence

theorem applyTo_wave {axes : List Qubit} (hn : axes.Nodup) {gs : List (Gate ℝ)}
    (h : On axes gs) (s : State ℝ axes) :
    ∃ t, applyTo gs s = .ok t ∧ State.wave t = act gs (State.wave s) := by
  induction gs generalizing s with
  | nil => exact ⟨s, rfl, rfl⟩
  | cons g gs ih =>
    obtain ⟨hg, hgs⟩ := on_cons.mp h
    obtain ⟨t, ht, hw⟩ := Gate.applyTo_wave hn hg s
    obtain ⟨u, hu, hw'⟩ := ih hgs t
    refine ⟨u, ?_, by rw [hw', hw, act_cons]⟩
    simp only [applyTo, List.foldlM_cons, ht]
    exact hu

/-- On every circuit that has the qubits `qs`, the simulator takes each state to what `u` makes of
its wave. -/
def Realises (gs : List (Gate ℝ)) (qs : List Qubit) (u : Wave → Wave) : Prop :=
  ∀ qubits : List Qubit, qubits.Nodup → (∀ q ∈ qs, q ∈ qubits) →
    ∀ s : State ℝ (State.axes qubits),
      ∃ t, applyTo gs s = .ok t ∧ State.wave t = u (State.wave s)

theorem realises_act {qs : List Qubit} {gs : List (Gate ℝ)} (h : On qs gs) :
    Realises gs qs (act gs) := by
  intro qubits hn hqs s
  exact applyTo_wave (State.nodup_axes hn) (h.mono fun q hq => State.mem_axes.mpr (hqs q hq)) s

/-- On every circuit that has the qubits `qs`, the sequence `hs` takes back each state that the
sequence `gs` has been applied to. -/
def Undoes (hs gs : List (Gate ℝ)) (qs : List Qubit) : Prop :=
  ∀ qubits : List Qubit, qubits.Nodup → (∀ q ∈ qs, q ∈ qubits) →
    ∀ s : State ℝ (State.axes qubits), ∃ t, applyTo gs s = .ok t ∧ applyTo hs t = .ok s

theorem undoes_of_act {qs : List Qubit} {gs hs : List (Gate ℝ)} (hg : On qs gs) (hh : On qs hs)
    (h : ∀ ψ, act hs (act gs ψ) = ψ) : Undoes hs gs qs := by
  intro qubits hn hqs s
  obtain ⟨t, ht, hw⟩ := realises_act hg qubits hn hqs s
  obtain ⟨u, hu, hw'⟩ := realises_act hh qubits hn hqs t
  refine ⟨t, ht, ?_⟩
  rw [hw, h] at hw'
  rw [hu, State.wave_injective (State.nodup_axes hn) hw']

theorem inverse_undoes {qs : List Qubit} {gs : List (Gate ℝ)} (h : On qs gs) :
    Undoes (inverse gs) gs qs := undoes_of_act h h.inverse (act_inverse_act h)

theorem undoes_inverse {qs : List Qubit} {gs : List (Gate ℝ)} (h : On qs gs) :
    Undoes gs (inverse gs) qs := undoes_of_act h.inverse h (act_act_inverse h)

theorem Realises.congr {gs : List (Gate ℝ)} {qs : List Qubit} {u v : Wave → Wave}
    (h : Realises gs qs u) (huv : ∀ ψ, u ψ = v ψ) : Realises gs qs v := by
  intro qubits hn hqs s
  obtain ⟨t, ht, hw⟩ := h qubits hn hqs s
  exact ⟨t, ht, hw.trans (huv _)⟩

end Sequence

end StateSynthesis
