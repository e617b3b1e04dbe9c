import StateSynthesis.Proofs.Allocation
import StateSynthesis.Proofs.Preparing
import StateSynthesis.Proofs.Resolution

/-!
Preparation without a tolerance. The register is taken from zero to the given vector scaled to norm
one, phases included, whether the vector is given by magnitudes and phases, by real or by complex
numbers. Main statement: `preparation_exact`, down to the state vector of the circuit that is made
for a caller who names none.
-/
namespace StateSynthesis

open Assignment Sequence Amplitude

/-! ## Vectors -/

/-- The vector scaled to norm one. -/
noncomputable def normalized (N : ℕ) (c : ℕ → ℂ) (j : ℕ) : ℂ := c j / norm₂ N c

/-- Amplitudes that stand for numbers. -/
theorem Amplitude.entry_map {β : Type} {f : β → Amplitude ℝ} {value : β → ℂ}
    (hf : ∀ x, (f x).toComplex = value x) {d : β} (hd : value d = 0) (xs : List β) :
    entry (xs.map f) = fun j => value (xs.getD j d) := by
  funext j
  rcases Nat.lt_or_ge j xs.length with h | h
  · rw [entry, List.getD_eq_getElem _ _ (by simpa using h), List.getD_eq_getElem _ _ h,
      List.getElem_map, hf]
  · rw [entry, List.getD_eq_default _ _ (by simpa using h), List.getD_eq_default _ _ h,
      toComplex_zero, hd]

namespace Preparation

theorem isZero_eq_false {as : List (Amplitude ℝ)} :
    isZero as = false ↔ ∃ a ∈ as, a.toComplex ≠ 0 := by
  have hzero (a : Amplitude ℝ) : a.toComplex = 0 ↔ a.magnitude = 0 := by
    rw [← norm_eq_zero, norm_toComplex, abs_eq_zero]
  simp [isZero, hzero]

theorem norm₂_entry_ne_zero {as : List (Amplitude ℝ)} (h : isZero as = false) {N : ℕ}
    (hN : as.length ≤ N) : norm₂ N (entry as) ≠ 0 := by
  obtain ⟨a, ha, hne⟩ := isZero_eq_false.mp h
  obtain ⟨j, hj, rfl⟩ := List.getElem_of_mem ha
  rw [Ne, norm₂_eq_zero]
  intro hall
  apply hne
  rw [← hall j (hj.trans_le hN), entry, List.getD_eq_getElem _ _ hj]

/-! ## Gates without a tolerance -/

variable {p : Preparation ℝ} {frame : Option (Circuit ℝ)} {register controls : List Qubit}
  {as : List (Amplitude ℝ)}

theorem Admits.prepares_exactly (h : p.Admits frame register controls as)
    (ha : p.adjoint = false) (h₀ : p.tolerance = 0) :
    ∃ gs, p.gates? frame = .ok (some gs) ∧ On (controls ++ register) gs ∧
      Prepares gs register controls (normalized (2 ^ register.length) (entry as)) := by
  obtain ⟨gs, hgs, hon, hw⟩ := h.prepares ha
  refine ⟨gs, hgs, hon, hw.congr fun j hj => ?_⟩
  have herror := h.error (le_of_eq h₀.symm)
  rw [h₀, mul_zero, zero_mul] at herror
  have hzero := norm₂_eq_zero.mp (le_antisymm herror (norm₂_nonneg _ _)) j hj
  have hne : norm₂ (2 ^ register.length) (entry as) ≠ 0 :=
    norm₂_entry_ne_zero h.nonzero h.amplitudes_fit
  rw [normalized, h₀, eq_div_iff (Complex.ofReal_ne_zero.mpr hne), mul_comm]
  exact sub_eq_zero.mp hzero

section Numbers

/-! Numbers that are written as amplitudes by `f`. -/

variable {β : Type} {f : β → Amplitude ℝ} {value : β → ℂ} {xs : List β}

theorem Resolves.admits_numbers (h : p.Resolves frame register controls)
    (hf : ∀ x, (f x).toComplex = value x) (hxs : p.coefficients = xs.map fun x => .ok (f x))
    (hl : xs.length ≤ 2 ^ register.length) (hne : ∃ x ∈ xs, value x ≠ 0) :
    p.Admits frame register controls (xs.map f) := by
  refine ⟨h, by rw [hxs, List.map_map]; rfl, by rwa [List.length_map], ?_⟩
  obtain ⟨x, hx, hx₀⟩ := hne
  exact isZero_eq_false.mpr ⟨f x, List.mem_map_of_mem hx, by rwa [hf]⟩

theorem Resolves.prepares_numbers (h : p.Resolves frame register controls)
    (hf : ∀ x, (f x).toComplex = value x) {d : β} (hd : value d = 0)
    (hxs : p.coefficients = xs.map fun x => .ok (f x)) (hl : xs.length ≤ 2 ^ register.length)
    (hne : ∃ x ∈ xs, value x ≠ 0) (ha : p.adjoint = false) (h₀ : p.tolerance = 0) :
    ∃ gs, p.gates? frame = .ok (some gs) ∧ On (controls ++ register) gs ∧
      Prepares gs register controls
        (normalized (2 ^ register.length) fun j => value (xs.getD j d)) := by
  obtain ⟨gs, hgs, hon, hw⟩ := (h.admits_numbers hf hxs hl hne).prepares_exactly ha h₀
  rw [entry_map hf hd] at hw
  exact ⟨gs, hgs, hon, hw⟩

end Numbers

theorem le_two_pow_registerSize (n : ℕ) : n ≤ 2 ^ registerSize n := by
  have hpow (m : ℕ) (hm : n ≤ 2 ^ m) (hr : m ≤ registerSize n) : n ≤ 2 ^ registerSize n :=
    hm.trans (Nat.pow_le_pow_right two_pos hr)
  by_cases h : dimension n.log2 = n
  · refine hpow n.log2 h.ge ?_
    simp [registerSize, h]
  · refine hpow (n.log2 + 1) Nat.lt_log2_self.le ?_
    simp [registerSize, h]

theorem registerSize_pos (n : ℕ) : 0 < registerSize n := le_max_left 1 _

end Preparation

/-! ## Circuits -/

/-- What the preparation makes of the zero state of its register. -/
theorem Sequence.Prepares.from_zero {gs : List (Gate ℝ)} {register : List Qubit} {w : ℕ → ℂ}
    (h : Prepares gs register [] w) (hn : register.Nodup) :
    ∃ t, applyTo gs (State.basis register 0) = .ok t ∧
      ∀ j < 2 ^ register.length, State.wave t (ofIndex register j) = w j := by
  obtain ⟨t, ht, _, hheld⟩ := h register hn (fun q hq => hq) (State.basis register 0)
  have hall (bits : Assignment) : ∀ d ∈ ([] : List Qubit), bits d = true := by simp
  have hzero : ∀ bits, (∀ d ∈ ([] : List Qubit), bits d = true) → index register bits ≠ 0 →
      State.wave (State.basis register 0) bits = 0 := fun bits _ hi => by
    rw [State.wave_basis, if_neg hi]
  refine ⟨t, ht, fun j hj => ?_⟩
  have hclear : index register (cleared register (ofIndex register j)) = 0 :=
    (index_eq_zero_iff _ _).mpr fun q hq => cleared_of_mem hq _
  rw [hheld hzero _ (hall _), State.wave_basis, if_pos hclear, index_ofIndex hn hj, mul_one]

theorem Sequence.Prepares.statevector {c : Circuit ℝ} {w : ℕ → ℂ}
    (h : Prepares c.gates c.qubits [] w) (hn : c.qubits.Nodup) :
    ∃ zs, c.statevector = .ok zs ∧ zs.length = 2 ^ c.qubits.length ∧
      ∀ j < 2 ^ c.qubits.length, (zs.getD j Cartesian.zero).toComplex = w j := by
  obtain ⟨t, ht, hw⟩ := h.from_zero hn
  refine ⟨Tensor.toList t, ?_, ?_, fun j hj => ?_⟩
  · simp only [Circuit.statevector, Circuit.applyTo, ht]
    rfl
  · rw [Tensor.length_toList, State.axes, List.length_reverse]
    rfl
  · rw [State.getD_toList_wave hn t hj, hw j hj]

namespace Action

variable {s : Session ℝ} {v : List (Cartesian ℝ)}

theorem ne_nil_of_nonzero (hv : ∃ z ∈ v, z.toComplex ≠ 0) : v ≠ [] := by
  rintro rfl
  simp at hv

/-- The gates that write the numbers into a register. -/
noncomputable def written (v : List (Cartesian ℝ)) (register : List Qubit) : List (Gate ℝ) :=
  inverse (Preparation.disentangle 0 register
    (padTo (dimension register.length) (v.map ofCartesian)))

section Written

variable {register : List Qubit} (hr : register ≠ []) (hn : register.Nodup)
  (hl : v.length ≤ 2 ^ register.length) (hv : ∃ z ∈ v, z.toComplex ≠ 0)

include hr hn hl hv

theorem gates?_ofComplex {frame : Option (Circuit ℝ)} {d : Datum ℝ}
    (hd : Operands.resolveAll frame d = .ok register) :
    (Preparation.ofComplex 0 v d).gates? frame = .ok (some (written v register)) := by
  have hp := Preparation.resolves_ofComplex 0 v hd hr hn
  rw [(hp.admits_numbers toComplex_ofCartesian rfl hl hv).gates?_eq]
  exact congrArg (Except.ok ∘ some) (controlled_nil _)

theorem prepares_written : Prepares (written v register) register []
    (normalized (2 ^ register.length) fun j => (v.getD j Cartesian.zero).toComplex) := by
  have hd := Operands.resolveAll_qubits (α := ℝ) (c := ⟨"", register, []⟩) fun q hq => hq
  obtain ⟨gs, hgs, _, hw⟩ := (Preparation.resolves_ofComplex 0 v hd hr hn).prepares_numbers
    toComplex_ofCartesian Cartesian.toComplex_zero rfl hl hv rfl rfl
  have hgiven := gates?_ofComplex hr hn hl hv hd
  rw [hgiven, Except.ok.injEq, Option.some.injEq] at hgs
  rwa [hgs]

/-- The numbers go into any register of the circuit that holds them. -/
theorem returns_ofComplex {n : ℕ} {c : Circuit ℝ} {d : Datum ℝ}
    (h : s.receivers[n]? = some (.circuit c))
    (hd : Operands.resolveAll (some c) d = .ok register) :
    Returns (prepare (Preparation.ofComplex 0 v d) (some (.receiver n))) s (none, false) { s with
      receivers := s.receivers.set n (.circuit { c with
        gates := c.gates ++ written v register }) } := by
  have hon := (Preparation.disentangle_on 0 hn
    (padTo (dimension register.length) (v.map ofCartesian))).inverse
  have hτ : Tolerance.check (Preparation.ofComplex 0 v d).tolerance = .ok () :=
    Tolerance.check_real.mpr le_rfl
  exact returns_prepare hτ h (gates?_ofComplex hr hn hl hv hd)
    (hon.takes (Operands.mem_of_resolveAll hd))

theorem returns_prepareState_written {n : ℕ} {c : Circuit ℝ} {d : Datum ℝ}
    (h : s.receivers[n]? = some (.circuit c))
    (hd : Operands.resolveAll (some c) d = .ok register) :
    Returns (prepareState v d (some (.receiver n)) (some 0)) s (none, false) { s with
      receivers := s.receivers.set n (.circuit { c with
        gates := c.gates ++ written v register }) } := by
  have hgiven : d ≠ .absent := by
    rintro rfl
    cases hd
  exact (prepareState_register (ne_nil_of_nonzero hv) hgiven _ s).trans
    (returns_ofComplex hr hn hl hv h hd)

end Written

theorem returns_prepareState_register {n : ℕ} {c : Circuit ℝ} {d : Datum ℝ}
    {register : List Qubit} (h : s.receivers[n]? = some (.circuit c))
    (hd : Operands.resolveAll (some c) d = .ok register) (hr : register ≠ [])
    (hn : register.Nodup) (hl : v.length ≤ 2 ^ register.length)
    (hv : ∃ z ∈ v, z.toComplex ≠ 0) :
    ∃ gs, Returns (prepareState v d (some (.receiver n)) (some 0)) s (none, false) { s with
        receivers := s.receivers.set n (.circuit { c with gates := c.gates ++ gs }) } ∧
      Prepares gs register [] (normalized (2 ^ register.length) fun j =>
        (v.getD j Cartesian.zero).toComplex) :=
  ⟨_, returns_prepareState_written hr hn hl hv h hd, prepares_written hr hn hl hv⟩

/-- The fresh qubits for a vector of length `N` are a register that it goes into. -/
theorem fresh_fits {created generated N : ℕ} {register : List Qubit}
    (hf : register = fresh created generated (Preparation.registerSize N)) :
    register ≠ [] ∧ register.Nodup ∧ N ≤ 2 ^ register.length := by
  have hlen : register.length = Preparation.registerSize N := by rw [hf, length_fresh]
  refine ⟨?_, hf ▸ List.Nodup.of_map _ (nodup_fresh _ _ _), ?_⟩
  · rw [← List.length_pos_iff, hlen]
    exact Preparation.registerSize_pos _
  · rw [hlen]
    exact Preparation.le_two_pow_registerSize _

/-- Without a register and a receiver, the vector is written into all qubits of a new circuit. -/
theorem returns_prepareState_created (s : Session ℝ) (hv : ∃ z ∈ v, z.toComplex ≠ 0) :
    ∃ (n : ℕ) (t : Session ℝ) (c : Circuit ℝ),
      Returns (prepareState v .absent none (some 0)) s (some n, false) t ∧
      t.receivers[n]? = some (.circuit c) ∧
      c.qubits = fresh s.created s.generated (Preparation.registerSize v.length) ∧
      c.gates = written v c.qubits := by
  have hcreate := returns_createCircuit (Preparation.registerSize v.length) s
  set c : Circuit ℝ := ⟨"circuit_" ++ toString s.receivers.length,
    fresh s.created s.generated (Preparation.registerSize v.length), []⟩
  set t : Session ℝ := { s with
    created := s.created + Preparation.registerSize v.length
    generated := s.generated + Preparation.registerSize v.length
    receivers := s.receivers ++ [.circuit c] }
  have ht : t.receivers[s.receivers.length]? = some (.circuit c) := List.getElem?_concat_length
  have hfresh : c.qubits = fresh s.created s.generated (Preparation.registerSize v.length) := rfl
  obtain ⟨hr, hn, hl⟩ := fresh_fits hfresh
  have hprep := returns_ofComplex hr hn hl hv ht (Operands.resolveAll_qubits fun q hq => hq)
  refine ⟨s.receivers.length, { t with
      receivers := t.receivers.set s.receivers.length
        (.circuit { c with gates := written v c.qubits }) },
    { c with gates := written v c.qubits }, ?_,
    List.getElem?_set_self (List.getElem?_eq_some_iff.mp ht).1, hfresh, rfl⟩
  have hempty : v.isEmpty = false := by simpa using ne_nil_of_nonzero hv
  unfold prepareState
  simp only [hempty, Bool.false_eq_true, ↓reduceIte]
  refine (returns_get s).bind (hcreate.bind ((returns_circuit ht).bind ?_))
  exact hprep.bind (returns_pure _ _)

theorem returns_prepareState_new (s : Session ℝ) (hv : ∃ z ∈ v, z.toComplex ≠ 0) :
    ∃ (n : ℕ) (t : Session ℝ) (c : Circuit ℝ),
      Returns (prepareState v .absent none (some 0)) s (some n, false) t ∧
      t.receivers[n]? = some (.circuit c) ∧
      c.qubits.length = Preparation.registerSize v.length ∧ c.qubits.Nodup ∧
      Prepares c.gates c.qubits [] (normalized (2 ^ c.qubits.length) fun j =>
        (v.getD j Cartesian.zero).toComplex) := by
  obtain ⟨n, t, c, hrun, ht, hfresh, hgates⟩ := returns_prepareState_created s hv
  obtain ⟨hr, hn, hl⟩ := fresh_fits hfresh
  refine ⟨n, t, c, hrun, ht, by rw [hfresh, length_fresh], hn, ?_⟩
  rw [hgates]
  exact prepares_written hr hn hl hv

/-- Without a register, the vector is written into fresh qubits of the circuit. -/
theorem returns_prepareState_allotted {n : ℕ} {c : Circuit ℝ}
    (h : s.receivers[n]? = some (.circuit c))
    (hfree : s.Free c (Preparation.registerSize v.length)) (hv : ∃ z ∈ v, z.toComplex ≠ 0) :
    ∃ (t : Session ℝ) (register : List Qubit),
      Returns (prepareState v .absent (some (.receiver n)) (some 0)) s (none, false) t ∧
      register = fresh s.created s.generated (Preparation.registerSize v.length) ∧
      t.receivers[n]? = some (.circuit { c with
        qubits := c.qubits ++ register, gates := c.gates ++ written v register }) := by
  have hrun : (prepareState v .absent (some (.receiver n)) (some 0)).run.run s = _ :=
    prepareState_fresh h (ne_nil_of_nonzero hv) hfree
  have ht := Session.allotted_receiver h (Preparation.registerSize v.length)
    (Preparation.registerSize v.length)
  set t := s.allotted n c (Preparation.registerSize v.length) (Preparation.registerSize v.length)
  set register := fresh s.created s.generated (Preparation.registerSize v.length) with hf
  obtain ⟨hr, hn, hl⟩ := fresh_fits hf
  have hprep := returns_ofComplex hr hn hl hv ht
    (Operands.resolveAll_qubits fun q hq => List.mem_append_right _ hq)
  refine ⟨_, register, hrun.trans hprep, hf, ?_⟩
  exact List.getElem?_set_self (List.getElem?_eq_some_iff.mp ht).1

theorem returns_prepareState_joined {n : ℕ} {c : Circuit ℝ}
    (h : s.receivers[n]? = some (.circuit c))
    (hid : ((c.qubits ++ fresh s.created s.generated (Preparation.registerSize v.length)).map
      Qubit.identifier).Nodup) (hv : ∃ z ∈ v, z.toComplex ≠ 0) :
    ∃ (t : Session ℝ) (gs : List (Gate ℝ)) (register : List Qubit),
      Returns (prepareState v .absent (some (.receiver n)) (some 0)) s (none, false) t ∧
      t.receivers[n]? = some (.circuit
        { c with qubits := c.qubits ++ register, gates := c.gates ++ gs }) ∧
      register.length = Preparation.registerSize v.length ∧
      Prepares gs register [] (normalized (2 ^ register.length) fun j =>
        (v.getD j Cartesian.zero).toComplex) := by
  obtain ⟨t, register, hrun, hf, ht⟩ :=
    returns_prepareState_allotted h (Session.free_of_nodup hid) hv
  obtain ⟨hr, hn, hl⟩ := fresh_fits hf
  exact ⟨t, _, register, hrun, ht, by rw [hf, length_fresh], prepares_written hr hn hl hv⟩

end Action

/-! ## The result -/

/-- **Exact preparation.** Without a tolerance, the register of an accepted preparation is taken
from zero to the given vector, scaled to norm one. So it is for real numbers, and for complex
numbers in a register of a circuit, in fresh qubits of a circuit, and as the state vector of a new
circuit. -/
theorem preparation_exact :
    (∀ (p : Preparation ℝ) (frame : Option (Circuit ℝ)) (register controls : List Qubit)
        (as : List (Amplitude ℝ)), p.Admits frame register controls as →
      p.adjoint = false → p.tolerance = 0 →
      ∃ gs, p.gates? frame = .ok (some gs) ∧
        Prepares gs register controls (normalized (2 ^ register.length) (entry as)) ∧
        Spares gs register controls) ∧
    (∀ (xs : List ℝ) (d e : Datum ℝ) (frame : Option (Circuit ℝ)) (register controls : List Qubit),
      (Preparation.exactOfReals xs d e false).Resolves frame register controls →
      xs.length ≤ 2 ^ register.length → (∃ x ∈ xs, x ≠ 0) →
      ∃ gs, (Preparation.exactOfReals xs d e false).gates? frame = .ok (some gs) ∧
        Prepares gs register controls
          (normalized (2 ^ register.length) fun j => (xs.getD j 0 : ℂ)) ∧
        Spares gs register controls) ∧
    (∀ (s : Session ℝ) (n : ℕ) (c : Circuit ℝ) (d : Datum ℝ) (register : List Qubit)
        (v : List (Cartesian ℝ)), s.receivers[n]? = some (.circuit c) →
      Operands.resolveAll (some c) d = .ok register → register ≠ [] → register.Nodup →
      v.length ≤ 2 ^ register.length → (∃ z ∈ v, z.toComplex ≠ 0) →
      ∃ gs, Action.Returns (Action.prepareState v d (some (.receiver n)) (some 0)) s
          (none, false) { s with
            receivers := s.receivers.set n (.circuit { c with gates := c.gates ++ gs }) } ∧
        Prepares gs register []
          (normalized (2 ^ register.length) fun j => (v.getD j Cartesian.zero).toComplex)) ∧
    (∀ (s : Session ℝ) (n : ℕ) (c : Circuit ℝ) (v : List (Cartesian ℝ)),
      s.receivers[n]? = some (.circuit c) →
      ((c.qubits ++ Action.fresh s.created s.generated
        (Preparation.registerSize v.length)).map Qubit.identifier).Nodup →
      (∃ z ∈ v, z.toComplex ≠ 0) →
      ∃ (t : Session ℝ) (gs : List (Gate ℝ)) (register : List Qubit),
        Action.Returns (Action.prepareState v .absent (some (.receiver n)) (some 0)) s
          (none, false) t ∧
        t.receivers[n]? = some (.circuit
          { c with qubits := c.qubits ++ register, gates := c.gates ++ gs }) ∧
        register.length = Preparation.registerSize v.length ∧
        Prepares gs register []
          (normalized (2 ^ register.length) fun j => (v.getD j Cartesian.zero).toComplex)) ∧
    (∀ (s : Session ℝ) (v : List (Cartesian ℝ)), (∃ z ∈ v, z.toComplex ≠ 0) →
      ∃ (n : ℕ) (t : Session ℝ) (c : Circuit ℝ) (zs : List (Cartesian ℝ)),
        Action.Returns (Action.prepareState v .absent none (some 0)) s (some n, false) t ∧
        t.receivers[n]? = some (.circuit c) ∧ c.statevector = .ok zs ∧
        zs.length = 2 ^ Preparation.registerSize v.length ∧ v.length ≤ zs.length ∧
        ∀ j < zs.length, (zs.getD j Cartesian.zero).toComplex =
          normalized zs.length (fun j => (v.getD j Cartesian.zero).toComplex) j) := by
  refine ⟨fun p frame register controls as h ha h₀ => ?_,
    fun xs d e frame register controls h hl hne => ?_,
    fun s n c d register v h hd hr hn hl hv =>
      Action.returns_prepareState_register h hd hr hn hl hv,
    fun s n c v h hid hv => Action.returns_prepareState_joined h hid hv,
    fun s v hv => ?_⟩
  · obtain ⟨gs, hgs, _, hw⟩ := h.prepares_exactly ha h₀
    exact ⟨gs, hgs, hw, hw.spares h.controls_free⟩
  · obtain ⟨gs, hgs, _, hw⟩ := h.prepares_numbers toComplex_ofReal Complex.ofReal_zero rfl hl
      (hne.imp fun x hx => ⟨hx.1, Complex.ofReal_ne_zero.mpr hx.2⟩) rfl zero_real
    exact ⟨gs, hgs, hw, hw.spares h.controls_free⟩
  · obtain ⟨n, t, c, hrun, ht, hsize, hn, hw⟩ := Action.returns_prepareState_new s hv
    obtain ⟨zs, hzs, hlen, hentries⟩ := hw.statevector hn
    refine ⟨n, t, c, zs, hrun, ht, hzs, by rw [hlen, hsize], ?_, fun j hj => ?_⟩
    · rw [hlen, hsize]
      exact Preparation.le_two_pow_registerSize _
    · rw [hlen] at hj ⊢
      exact hentries j hj

/-- Two amplitudes under a control, two real numbers, and complex numbers in the second qubit of a
circuit, in a fresh third one, and in a circuit of their own. -/
theorem preparation_exact_pairs :
    (∃ gs, (⟨0, [.ok ⟨1, 0⟩, .ok ⟨-2, 3⟩], .list [.qubit ⟨0, "a"⟩], .list [.qubit ⟨1, "b"⟩],
          false⟩ : Preparation ℝ).gates? none = .ok (some gs) ∧
        Prepares gs [⟨0, "a"⟩] [⟨1, "b"⟩] (normalized 2 (entry [⟨1, 0⟩, ⟨-2, 3⟩])) ∧
        Spares gs [⟨0, "a"⟩] [⟨1, "b"⟩]) ∧
    (∃ gs, (Preparation.exactOfReals [1, -1] (.list [.qubit ⟨0, "a"⟩]) (.list []) false).gates?
          none = .ok (some gs) ∧
        Prepares gs [⟨0, "a"⟩] [] (normalized 2 fun j => (([1, -1] : List ℝ).getD j 0 : ℂ))) ∧
    (∃ gs, Action.Returns (Action.prepareState [⟨0, 1⟩, ⟨1, 0⟩] (.list [.integer 1])
          (some (.receiver 0)) (some 0))
          ⟨2, 0, [.circuit ⟨"main", [⟨0, "a"⟩, ⟨1, "b"⟩], []⟩], [], 0, 0⟩ (none, false)
          ⟨2, 0, [.circuit ⟨"main", [⟨0, "a"⟩, ⟨1, "b"⟩], gs⟩], [], 0, 0⟩ ∧
        Prepares gs [⟨1, "b"⟩] [] (normalized 2 fun j =>
          (([⟨0, 1⟩, ⟨1, 0⟩] : List (Cartesian ℝ)).getD j Cartesian.zero).toComplex)) ∧
    (∃ (t : Session ℝ) (gs : List (Gate ℝ)) (register : List Qubit),
        Action.Returns (Action.prepareState [⟨0, 1⟩] .absent (some (.receiver 0)) (some 0))
          ⟨2, 0, [.circuit ⟨"main", [⟨0, "a"⟩, ⟨1, "b"⟩], []⟩], [], 0, 0⟩ (none, false) t ∧
        t.receivers[0]? = some (.circuit
          ⟨"main", [⟨0, "a"⟩, ⟨1, "b"⟩] ++ register, [] ++ gs⟩)) ∧
    ∃ (n : ℕ) (t : Session ℝ),
      Action.Returns (Action.prepareState [⟨0, 1⟩] .absent none (some 0)) (Session.start 0 0)
        (some n, false) t := by
  obtain ⟨hpolar, hreal, hregister, hjoined, hnew⟩ := preparation_exact
  have hone : Cartesian.toComplex ⟨0, 1⟩ ≠ 0 := fun h => one_ne_zero (congrArg Complex.im h)
  refine ⟨?_, ?_, ?_, ?_, ?_⟩
  · refine hpolar _ none [⟨0, "a"⟩] [⟨1, "b"⟩] _ ⟨⟨rfl, rfl, by simp, by decide⟩, rfl, le_rfl, ?_⟩
      rfl rfl
    simp [Preparation.isZero]
  · obtain ⟨gs, hgs, hw, _⟩ := hreal [1, -1] (.list [.qubit ⟨0, "a"⟩]) (.list []) none [⟨0, "a"⟩]
      [] ⟨rfl, rfl, by simp, by decide⟩ le_rfl ⟨1, by simp, one_ne_zero⟩
    exact ⟨gs, hgs, hw⟩
  · exact hregister ⟨2, 0, [.circuit ⟨"main", [⟨0, "a"⟩, ⟨1, "b"⟩], []⟩], [], 0, 0⟩ 0 _ _
      [⟨1, "b"⟩] [⟨0, 1⟩, ⟨1, 0⟩] rfl rfl (by simp) (by simp) le_rfl ⟨_, by simp, hone⟩
  · obtain ⟨t, gs, register, hrun, ht, _⟩ := hjoined
      ⟨2, 0, [.circuit ⟨"main", [⟨0, "a"⟩, ⟨1, "b"⟩], []⟩], [], 0, 0⟩ 0 _ [⟨0, 1⟩] rfl
      (by decide) ⟨_, by simp, hone⟩
    exact ⟨t, gs, register, hrun, ht⟩
  · obtain ⟨n, t, _, _, hrun, _⟩ := hnew (Session.start 0 0) [⟨0, 1⟩] ⟨_, by simp, hone⟩
    exact ⟨n, t, hrun⟩

end StateSynthesis
