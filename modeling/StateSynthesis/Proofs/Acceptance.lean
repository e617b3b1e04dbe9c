import StateSynthesis.Diagonal
import StateSynthesis.Preparation
import StateSynthesis.Proofs.Resolution
import StateSynthesis.Proofs.Support

/-!
Operands that the synthesis accepts: what the checks look for, after resolution in the circuit.
Accepted operands are never refused, and the gates are the ones of the recursion
(`Admits.gates_eq`, `Resolves.gates?_eq`), on the qubits that the operands stand for
(`Admits.exists_gates`). Operands that are not refused are accepted (`admits_of_gates`,
`resolves_of_gates?`).
-/
namespace StateSynthesis

variable {α : Type} [Scalar α]

/-- Padding is invisible to a reader who reads the same value behind the end. -/
theorem getD_append_replicate {β : Type} (xs : List β) (n j : Nat) (d : β) :
    (xs ++ List.replicate n d).getD j d = xs.getD j d := by
  simp only [List.getD_eq_getElem?_getD]
  rcases Nat.lt_or_ge j xs.length with h | h
  · rw [List.getElem?_append_left h]
  · rw [List.getElem?_append_right h, List.getElem?_eq_none h, List.getElem?_replicate]
    split <;> rfl

theorem Tolerance.check_eq_ok_iff {τ : α} :
    check τ = .ok () ↔ Scalar.le Scalar.zero τ = true := by
  simp [check]

theorem Angles.length_le_of_pad {k : Nat} {xs ys : List α} (h : pad k xs = .ok ys) :
    xs.length ≤ dimension k := by
  unfold pad at h
  split at h
  · cases h
  · omega

/-- The operands of a multiplexed rotation resolve to distinct qubits, and to few enough angles. -/
structure MultiplexedRotation.Admits (r : MultiplexedRotation α) (frame : Option (Circuit α))
    (axis : Axis) (controls outer : List Qubit) (target : Qubit) : Prop where
  tolerance_ok : Tolerance.check r.tolerance = .ok ()
  axis_ok : Axis.ofDatum r.axis = .ok axis
  controls_ok : Operands.resolveAll frame r.controls = .ok controls
  outer_ok : Operands.resolveAll frame r.outer = .ok outer
  target_ok : Operands.resolve frame r.target = .ok target
  identity_free : axis = .identity → controls = []
  distinct : (controls ++ outer ++ [target]).Nodup
  angles_fit : r.angles.length ≤ dimension controls.length

theorem MultiplexedRotation.Admits.withAdjoint {r : MultiplexedRotation α}
    {frame : Option (Circuit α)} {axis : Axis} {controls outer : List Qubit} {target : Qubit}
    (h : r.Admits frame axis controls outer target) (adjoint : Bool) :
    { r with adjoint }.Admits frame axis controls outer target := { h with }

theorem MultiplexedRotation.Admits.gates_eq {r : MultiplexedRotation α}
    {frame : Option (Circuit α)} {axis : Axis} {controls outer : List Qubit} {target : Qubit}
    (h : r.Admits frame axis controls outer target) :
    r.gates frame = .ok (Sequence.oriented r.adjoint (Multiplexer.gates r.tolerance axis controls
      target outer (Angles.padTo (dimension controls.length) r.angles))) := by
  have hi : (axis == .identity && !controls.isEmpty) = false := by
    cases hc : controls with
    | nil => simp
    | cons c cs =>
      have hne : axis ≠ .identity := fun e => by simp [h.identity_free e] at hc
      simp [hne]
  have hp : Angles.pad controls.length r.angles =
      .ok (Angles.padTo (dimension controls.length) r.angles) := by
    simp [Angles.pad, Nat.not_lt.mpr h.angles_fit]
  simp only [gates, h.tolerance_ok, h.axis_ok, h.controls_ok, h.outer_ok, h.target_ok,
    Operands.distinct, h.distinct, hp, bind, Except.bind, hi, Bool.false_eq_true, ↓reduceIte]
  rfl

theorem MultiplexedRotation.admits_of_gates {r : MultiplexedRotation α}
    {frame : Option (Circuit α)} {gs : List (Gate α)} (h : r.gates frame = .ok gs) :
    ∃ axis controls outer target, r.Admits frame axis controls outer target := by
  simp only [gates, bind_eq_ok_iff, guard_eq_ok_iff] at h
  obtain ⟨_, hτ, axis, ha, controls, hc, outer, ho, target, ht, hi, _, hd, angles, hp, -⟩ := h
  refine ⟨axis, controls, outer, target, hτ, ha, hc, ho, ht, fun e => ?_,
    Operands.nodup_of_distinct hd, Angles.length_le_of_pad hp⟩
  simpa [e] using hi

/-- The operands of a diagonal unitary. -/
structure DiagonalUnitary.Admits (d : DiagonalUnitary α) (frame : Option (Circuit α))
    (register controls : List Qubit) : Prop where
  tolerance_ok : Tolerance.check d.tolerance = .ok ()
  register_ok : Operands.resolveAll frame d.register = .ok register
  controls_ok : Operands.resolveAll frame d.controls = .ok controls
  nonempty : register ≠ []
  distinct : (register ++ controls).Nodup
  angles_fit : d.angles.length ≤ dimension register.length

theorem DiagonalUnitary.Admits.withAdjoint {d : DiagonalUnitary α} {frame : Option (Circuit α)}
    {register controls : List Qubit} (h : d.Admits frame register controls) (adjoint : Bool) :
    { d with adjoint }.Admits frame register controls := { h with }

theorem DiagonalUnitary.Admits.gates_eq {d : DiagonalUnitary α} {frame : Option (Circuit α)}
    {register controls : List Qubit} (h : d.Admits frame register controls) :
    d.gates frame = .ok (Sequence.controlled controls (Sequence.oriented d.adjoint
      (Diagonal.phases d.tolerance register.reverse
        (Angles.padTo (dimension register.length) d.angles)))) := by
  have he : register.isEmpty = false := by simpa using h.nonempty
  have hp : Angles.pad register.length d.angles =
      .ok (Angles.padTo (dimension register.length) d.angles) := by
    simp [Angles.pad, Nat.not_lt.mpr h.angles_fit]
  simp only [gates, h.tolerance_ok, h.register_ok, h.controls_ok, Operands.distinct, h.distinct,
    hp, bind, Except.bind, he, Bool.false_eq_true, ↓reduceIte]
  rfl

theorem DiagonalUnitary.admits_of_gates {d : DiagonalUnitary α} {frame : Option (Circuit α)}
    {gs : List (Gate α)} (h : d.gates frame = .ok gs) :
    ∃ register controls, d.Admits frame register controls := by
  simp only [gates, bind_eq_ok_iff, guard_eq_ok_iff] at h
  obtain ⟨_, hτ, register, hr, controls, hc, he, _, hd, angles, hp, -⟩ := h
  exact ⟨register, controls, hτ, hr, hc, by simpa using he, Operands.nodup_of_distinct hd,
    Angles.length_le_of_pad hp⟩

/-- The operands of a disentangled register. -/
structure Unpreparation.Admits (u : Unpreparation α) (frame : Option (Circuit α))
    (controls : List Qubit) (target : Qubit) (amplitudes : List (Amplitude α)) : Prop where
  tolerance_ok : Tolerance.check u.tolerance = .ok ()
  controls_ok : Operands.resolveAll frame u.controls = .ok controls
  target_ok : Operands.resolve frame u.target = .ok target
  distinct : (controls ++ [target]).Nodup
  coefficients_ok : Entry.pad (dimension (controls.length + 1)) u.coefficients = .ok amplitudes

theorem Unpreparation.Admits.gates_eq {u : Unpreparation α} {frame : Option (Circuit α)}
    {controls : List Qubit} {target : Qubit} {as : List (Amplitude α)}
    (h : u.Admits frame controls target as) :
    u.gates frame = .ok (Preparation.disentangle u.tolerance (target :: controls) as) := by
  simp only [gates, h.tolerance_ok, h.controls_ok, h.target_ok, Operands.distinct, h.distinct,
    h.coefficients_ok, bind, Except.bind, ↓reduceIte]
  rfl

theorem Unpreparation.admits_of_gates {u : Unpreparation α} {frame : Option (Circuit α)}
    {gs : List (Gate α)} (h : u.gates frame = .ok gs) :
    ∃ controls target as, u.Admits frame controls target as := by
  simp only [gates, bind_eq_ok_iff] at h
  obtain ⟨_, hτ, controls, hc, target, ht, _, hd, as, hp, -⟩ := h
  exact ⟨controls, target, as, hτ, hc, ht, Operands.nodup_of_distinct hd, hp⟩

/-- The qubits of a preparation. -/
structure Preparation.Resolves (p : Preparation α) (frame : Option (Circuit α))
    (register controls : List Qubit) : Prop where
  register_ok : Operands.resolveAll frame p.register = .ok register
  controls_ok : Operands.resolveAll frame p.controls = .ok controls
  nonempty : register ≠ []
  distinct : (register ++ controls).Nodup

omit [Scalar α] in
theorem Preparation.Resolves.controls_free {p : Preparation α} {frame : Option (Circuit α)}
    {register controls : List Qubit} (h : p.Resolves frame register controls) :
    ∀ c ∈ controls, c ∉ register := fun c hc hr =>
  (List.nodup_append.mp h.distinct).2.2 c hr c hc rfl

theorem Preparation.resolves_ofComplex (τ : α) (v : List (Cartesian α)) {d : Datum α}
    {frame : Option (Circuit α)} {register : List Qubit}
    (hd : Operands.resolveAll frame d = .ok register) (hr : register ≠ []) (hn : register.Nodup) :
    (ofComplex τ v d).Resolves frame register [] :=
  ⟨hd, rfl, hr, by rwa [List.append_nil]⟩

/-- The operands of a preparation, with amplitudes that are not all zero. -/
structure Preparation.Admits (p : Preparation α) (frame : Option (Circuit α))
    (register controls : List Qubit) (amplitudes : List (Amplitude α)) : Prop
    extends p.Resolves frame register controls where
  coefficients_eq : p.coefficients = amplitudes.map .ok
  amplitudes_fit : amplitudes.length ≤ dimension register.length
  nonzero : Preparation.isZero amplitudes = false

omit [Scalar α] in
theorem Entry.resolve_map_ok (as : List (Amplitude α)) : resolve (as.map .ok) = .ok as := by
  induction as with
  | nil => rfl
  | cons a as ih =>
    simp only [resolve, List.map_cons, List.mapM_cons] at ih ⊢
    rw [ih]
    rfl

theorem Preparation.isZero_padTo {n : Nat} {as : List (Amplitude α)} (h : isZero as = false) :
    isZero (Amplitude.padTo n as) = false := by
  simp only [isZero, Amplitude.padTo, List.all_append] at h ⊢
  rw [h, Bool.false_and]

theorem Preparation.Resolves.gates?_eq {p : Preparation α} {frame : Option (Circuit α)}
    {register controls : List Qubit} {as : List (Amplitude α)}
    (h : p.Resolves frame register controls)
    (hp : Entry.pad (dimension register.length) p.coefficients = .ok as) :
    p.gates? frame = .ok (if isZero as then none else some (Sequence.controlled controls
      (Sequence.oriented (!p.adjoint) (disentangle p.tolerance register as)))) := by
  have he : register.isEmpty = false := by simpa using h.nonempty
  simp only [gates?, h.register_ok, h.controls_ok, Operands.distinct, h.distinct, hp, bind,
    Except.bind, he, Bool.false_eq_true, ↓reduceIte]
  split <;> rfl

theorem Preparation.Admits.gates?_eq {p : Preparation α} {frame : Option (Circuit α)}
    {register controls : List Qubit} {as : List (Amplitude α)}
    (h : p.Admits frame register controls as) :
    p.gates? frame = .ok (some (Sequence.controlled controls (Sequence.oriented (!p.adjoint)
      (disentangle p.tolerance register (Amplitude.padTo (dimension register.length) as))))) := by
  have hp : Entry.pad (dimension register.length) p.coefficients =
      .ok (Amplitude.padTo (dimension register.length) as) := by
    simp only [Entry.pad, Entry.padAs, h.coefficients_eq, Entry.resolve_map_ok, bind, Except.bind,
      Nat.not_lt.mpr h.amplitudes_fit, ↓reduceIte]
    rfl
  rw [h.toResolves.gates?_eq hp, isZero_padTo h.nonzero]
  rfl

theorem Preparation.resolves_of_gates? {p : Preparation α} {frame : Option (Circuit α)}
    {gs : Option (List (Gate α))} (h : p.gates? frame = .ok gs) :
    ∃ register controls as, p.Resolves frame register controls ∧
      Entry.pad (dimension register.length) p.coefficients = .ok as := by
  simp only [gates?, bind_eq_ok_iff, guard_eq_ok_iff] at h
  obtain ⟨register, hr, controls, hc, he, _, hd, as, hp, -⟩ := h
  exact ⟨register, controls, as, ⟨hr, hc, by simpa using he, Operands.nodup_of_distinct hd⟩, hp⟩

/-! ## Gates of accepted operands -/

open Sequence

theorem MultiplexedRotation.Admits.exists_gates {r : MultiplexedRotation α}
    {frame : Option (Circuit α)} {axis : Axis} {controls outer : List Qubit} {target : Qubit}
    (h : r.Admits frame axis controls outer target) :
    ∃ gs, r.gates frame = .ok gs ∧ On (controls ++ outer ++ [target]) gs := by
  have hon := (Multiplexer.gates_on r.tolerance axis h.distinct
    (Angles.padTo (dimension controls.length) r.angles)).oriented r.adjoint
  exact ⟨_, h.gates_eq, hon.mono fun q hq =>
    (List.perm_append_singleton target (controls ++ outer)).mem_iff.mpr hq⟩

theorem DiagonalUnitary.Admits.exists_gates {d : DiagonalUnitary α} {frame : Option (Circuit α)}
    {register controls : List Qubit} (h : d.Admits frame register controls) :
    ∃ gs, d.gates frame = .ok gs ∧ On (register ++ controls) gs := by
  have hn := List.nodup_reverse.mpr (List.nodup_append.mp h.distinct).1
  have hon := (Diagonal.phases_on d.tolerance hn
    (Angles.padTo (dimension register.length) d.angles)).mono fun q hq => List.mem_reverse.mp hq
  exact ⟨_, h.gates_eq, (hon.oriented d.adjoint).controlled_append h.distinct⟩

theorem Unpreparation.Admits.exists_gates {u : Unpreparation α} {frame : Option (Circuit α)}
    {controls : List Qubit} {target : Qubit} {as : List (Amplitude α)}
    (h : u.Admits frame controls target as) :
    ∃ gs, u.gates frame = .ok gs ∧ On (controls ++ [target]) gs := by
  have hperm := List.perm_append_singleton target controls
  have hon := Preparation.disentangle_on u.tolerance (hperm.nodup_iff.mp h.distinct) as
  exact ⟨_, h.gates_eq, hon.mono fun q hq => hperm.mem_iff.mpr hq⟩

theorem Preparation.Resolves.exists_gates? {p : Preparation α} {frame : Option (Circuit α)}
    {register controls : List Qubit} {as : List (Amplitude α)}
    (h : p.Resolves frame register controls)
    (hp : Entry.pad (dimension register.length) p.coefficients = .ok as) :
    ∃ gs?, p.gates? frame = .ok gs? ∧ ∀ gs ∈ gs?, On (register ++ controls) gs := by
  refine ⟨_, h.gates?_eq hp, ?_⟩
  have hn := (List.nodup_append.mp h.distinct).1
  split
  · simp
  · rintro _ ⟨⟩
    exact ((disentangle_on p.tolerance hn as).oriented (!p.adjoint)).controlled_append h.distinct

end StateSynthesis
