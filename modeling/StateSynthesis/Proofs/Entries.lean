import StateSynthesis.Proofs.Operator

/-!
The amplitudes of a state by number: bit `i` of the number belongs to the `i`-th qubit
(`testBit_index`), and the basis states are numbered from `0` to `2 ^ n - 1` (`Bits.number`). A gate
changes the entries whose numbers have a one for each of its controls. It multiplies them by a phase
(`entries_of_phase`), or it mixes those that differ in the bit of its target (`entries_of_target`).
-/
namespace StateSynthesis

open Complex Assignment

/-! ## Bits of numbers -/

/-- The number `j` with the bit `i` set to `b`. -/
def withBit (i : ℕ) (b : Bool) (j : ℕ) : ℕ :=
  if b then j ||| 2 ^ i else (j ||| 2 ^ i) ^^^ 2 ^ i

theorem testBit_withBit (i : ℕ) (b : Bool) (j k : ℕ) :
    (withBit i b j).testBit k = if k = i then b else j.testBit k := by
  by_cases hk : k = i
  · subst hk
    cases b <;> simp [withBit]
  · have hne : i ≠ k := Ne.symm hk
    cases b <;> simp [withBit, Nat.testBit_two_pow_of_ne hne, hk]

theorem withBit_lt {n i j : ℕ} (hi : i < n) (b : Bool) (hj : j < 2 ^ n) :
    withBit i b j < 2 ^ n := by
  have hpow : 2 ^ i < 2 ^ n := Nat.pow_lt_pow_right one_lt_two hi
  have hor : j ||| 2 ^ i < 2 ^ n := Nat.or_lt_two_pow hj hpow
  cases b
  · exact Nat.xor_lt_two_pow hor hpow
  · exact hor

theorem withBit_testBit (i j : ℕ) : withBit i (j.testBit i) j = j := by
  refine Nat.eq_of_testBit_eq fun k => ?_
  rw [testBit_withBit]
  split
  · rename_i hk
    rw [hk]
  · rfl

namespace Assignment

theorem testBit_index {qs : List Qubit} {q : Qubit} (hq : q ∈ qs) (bits : Assignment) :
    (index qs bits).testBit (qs.idxOf q) = bits q := by
  induction qs with
  | nil => simp at hq
  | cons r qs ih =>
    by_cases hr : r = q
    · subst hr
      cases hb : bits r <;> simp [index, hb, Nat.testBit_zero]
    · have hmem : q ∈ qs := (List.mem_cons.mp hq).resolve_left (Ne.symm hr)
      have hhalf : (index (r :: qs) bits) / 2 = index qs bits := by
        have hb : (bits r).toNat ≤ 1 := Bool.toNat_le _
        simp only [index]
        omega
      rw [List.idxOf_cons_ne _ hr, Nat.testBit_succ, hhalf, ih hmem]

/-- Setting a bit of the number sets the bit of its qubit. -/
theorem ofIndex_withBit {qs : List Qubit} {q r : Qubit} (hq : q ∈ qs) (j : ℕ) (b : Bool) :
    ofIndex qs (withBit (qs.idxOf q) b j) r = Function.update (ofIndex qs j) q b r := by
  by_cases hrq : r = q
  · subst hrq
    simp [ofIndex, testBit_withBit]
  · have hne : qs.idxOf r ≠ qs.idxOf q := fun e => hrq (List.idxOf_inj hq |>.mp e.symm).symm
    simp [ofIndex, testBit_withBit, hne, hrq]

end Assignment

/-- The basis states by number. -/
def Bits.number {qs : List Qubit} (hn : qs.Nodup) : Bits qs ≃ Fin (2 ^ qs.length) where
  toFun x := ⟨index qs (extend x), index_lt qs _⟩
  invFun j := restrict qs (ofIndex qs j)
  left_inv x := by
    funext q
    exact (testBit_index q.2 _).trans (extend_apply x q)
  right_inv j := by
    refine Fin.ext (Eq.trans (index_congr fun q hq => ?_) (index_ofIndex hn j.2))
    exact extend_restrict hq _

/-! ## Entries -/

namespace State

variable {qubits : List Qubit}

noncomputable def entries (s : State ℝ (axes qubits)) : Fin (2 ^ qubits.length) → ℂ :=
  fun j => ((Tensor.toList s).getD j Cartesian.zero).toComplex

theorem entries_eq_wave (hn : qubits.Nodup) (s : State ℝ (axes qubits))
    (j : Fin (2 ^ qubits.length)) : entries s j = wave s (ofIndex qubits j) :=
  getD_toList_wave hn s j.2

theorem entries_number (hn : qubits.Nodup) (s : State ℝ (axes qubits)) (x : Bits qubits) :
    entries s (Bits.number hn x) = amplitudes s x := by
  rw [entries_eq_wave hn, ← lift_amplitudes]
  exact congrArg (amplitudes s) ((Bits.number hn).symm_apply_apply x)

/-- The wave of a state looks at its qubits only. -/
theorem wave_congr (s : State ℝ (axes qubits)) {bits bits' : Assignment}
    (h : ∀ q ∈ qubits, bits q = bits' q) : wave s bits = wave s bits' :=
  congrArg Cartesian.toComplex (Tensor.get_congr s fun q hq => h q (mem_axes.mp hq))

end State

/-! ## Gates on entries -/

namespace Gate

variable {qubits : List Qubit} {g : Gate ℝ} {s t : State ℝ (State.axes qubits)}

theorem wave_of_applyTo (hn : qubits.Nodup) (h : g.On qubits) (ht : g.applyTo s = .ok t) :
    State.wave t = g.act (State.wave s) := by
  obtain ⟨u, hu, hw⟩ := applyTo_wave (State.nodup_axes hn)
    (h.mono fun _ hq => State.mem_axes.mpr hq) s
  obtain rfl := Except.ok.inj (ht.symm.trans hu)
  exact hw

theorem entries_of_phase (hn : qubits.Nodup) (h : g.On qubits) (hp : g.target = none)
    (ht : g.applyTo s = .ok t) (j : Fin (2 ^ qubits.length)) :
    State.entries t j =
      (if ∀ c ∈ g.controls, j.1.testBit (qubits.idxOf c) = true then exp (g.angle * I) else 1) *
        State.entries s j := by
  rw [State.entries_eq_wave hn, State.entries_eq_wave hn, wave_of_applyTo hn h ht, act_of_phase hp]
  rfl

theorem entries_of_target (hn : qubits.Nodup) (h : g.On qubits) {q : Qubit}
    (hq : g.target = some q) (hlt : qubits.idxOf q < qubits.length) (ht : g.applyTo s = .ok t)
    (j : Fin (2 ^ qubits.length)) :
    State.entries t j = if ∀ c ∈ g.controls, j.1.testBit (qubits.idxOf c) = true then
        ∑ b, g.kind.unitary g.angle (j.1.testBit (qubits.idxOf q)) b *
          State.entries s ⟨withBit (qubits.idxOf q) b j, withBit_lt hlt b j.2⟩
      else State.entries s j := by
  have hmem : q ∈ qubits := List.idxOf_lt_length_iff.mp hlt
  have hset (b : Bool) : State.wave s (Function.update (ofIndex qubits j) q b) =
      State.entries s ⟨withBit (qubits.idxOf q) b j, withBit_lt hlt b j.2⟩ := by
    rw [State.entries_eq_wave hn]
    exact State.wave_congr s fun r _ => (ofIndex_withBit hmem j b).symm
  rw [State.entries_eq_wave hn, State.entries_eq_wave hn s, wave_of_applyTo hn h ht]
  simp only [act, hq, hset]
  rfl

end Gate

end StateSynthesis
