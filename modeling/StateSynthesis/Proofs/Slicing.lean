import StateSynthesis.Proofs.Entries

/-!
Gates by slices. The amplitudes of `n` qubits are an array with `n` axes of length two, the last
axis for the first qubit. A gate changes the slice in which the axes of its controls are fixed at
one. These axes are gone from the slice, so the axis of the target has a smaller number there, by as
many as there are controls before it (`idxOf_freeAxes`). The slice is contracted with the matrix of
the gate along this axis, the new axis comes out first and is moved to its place. Main statement:
the result is what the gate makes of the wave (`Gate.sliced_map`).
-/
namespace StateSynthesis

open Complex

/-! ## The matrices by row and column -/

/-- The entry of the matrix of a kind in a row and a column. -/
noncomputable def Kind.entry (k : Kind) (a : ℝ) (row column : Bool) : ℂ :=
  (((k.matrixRows a).getD row.toNat []).getD column.toNat Cartesian.zero).toComplex

theorem Kind.unitary_eq_entry {k : Kind} (hk : k ≠ .gphase) (a : ℝ) (i j : Bool) :
    k.unitary a i j = k.entry a i j := by
  cases k <;> first
    | exact absurd rfl hk
    | (cases i <;> cases j <;> rfl)

theorem Kind.entry_gphase (a : ℝ) : Kind.gphase.entry a false false = exp (a * I) :=
  Cartesian.toComplex_cis a

/-! ## Arrays -/

/-- An array with axes of length two, by its entries at the coordinates along the axes. -/
abbrev Axial (β : Type) := List Bool → β

namespace Axial

variable {β : Type}

/-- The place of an entry among all entries in order, the last axis running fastest. -/
def number : List Bool → ℕ
  | [] => 0
  | i :: is => i.toNat * 2 ^ is.length + number is

/-- The array of a vector. -/
def ofVector (v : ℕ → β) : Axial β := fun is => v (number is)

/-- Contracts the axis `k` with the matrix. The axis of its rows comes first. -/
noncomputable def contract (m : Bool → Bool → ℂ) (k : ℕ) (a : Axial ℂ) : Axial ℂ
  | [] => 0
  | i :: is => ∑ b, m i b * a (is.insertIdx k b)

/-- Moves the first axis to the place `k`. -/
def moveFirst (k : ℕ) (a : Axial β) : Axial β := fun is => a (is.getD k false :: is.eraseIdx k)

end Axial

/-- For each axis of an array, the coordinate at which a slice fixes it, if it does. -/
abbrev Slice := List (Option Bool)

namespace Slice

variable {β : Type}

/-- The coordinates in the array of an entry of the slice. -/
def place : Slice → List Bool → List Bool
  | [], _ => []
  | some b :: p, is => b :: place p is
  | none :: p, is => is.headD false :: place p is.tail

/-- The coordinates in the slice of an entry of the array that is in it. -/
def coordinates : Slice → List Bool → List Bool
  | none :: p, i :: is => i :: coordinates p is
  | some _ :: p, _ :: is => coordinates p is
  | _, _ => []

/-- The entry of the array at these coordinates is in the slice. -/
def contains : Slice → List Bool → Bool
  | some b :: p, i :: is => i == b && contains p is
  | none :: p, _ :: is => contains p is
  | _, _ => true

def get (p : Slice) (a : Axial β) : Axial β := fun is => a (p.place is)

/-- The array with the slice replaced by `u`. -/
def put (p : Slice) (u a : Axial β) : Axial β := fun is =>
  if p.contains is then u (p.coordinates is) else a is

end Slice

/-! ## Axes of qubits -/

/-- The number of the axis of a qubit. -/
def axisOf (qubits : List Qubit) (q : Qubit) : ℕ := qubits.length - 1 - qubits.idxOf q

/-- The slice in which the axes of the controls are fixed at one. -/
def controlSlice (qubits cs : List Qubit) : Slice :=
  cs.foldl (fun p c => p.set (axisOf qubits c) (some true)) (List.replicate qubits.length none)

/-- The number of the axis of the target in this slice. -/
def targetAxis (qubits cs : List Qubit) (q : Qubit) : ℕ :=
  axisOf qubits q - cs.countP fun c => axisOf qubits c < axisOf qubits q

/-- What the gate makes of an array. -/
noncomputable def Gate.sliced (qubits : List Qubit) (g : Gate ℝ) (a : Axial ℂ) : Axial ℂ :=
  let p := controlSlice qubits g.controls
  let m := g.kind.entry g.angle
  match g.target with
  | none => p.put (fun is => p.get a is * m false false) a
  | some q =>
    let k := targetAxis qubits g.controls q
    p.put (Axial.moveFirst k (Axial.contract m k (p.get a))) a

/-! ## Axes and assignments -/

theorem axisOf_eq_idxOf {qubits : List Qubit} (hn : qubits.Nodup) {q : Qubit} (hq : q ∈ qubits) :
    axisOf qubits q = (State.axes qubits).idxOf q := by
  have hi : qubits.idxOf q < qubits.length := List.idxOf_lt_length_of_mem hq
  have hlt : axisOf qubits q < (State.axes qubits).length := by
    simp only [axisOf, State.axes, List.length_reverse]
    omega
  have hback : qubits.length - 1 - axisOf qubits q = qubits.idxOf q := by
    simp only [axisOf]
    omega
  have hget : (State.axes qubits)[axisOf qubits q] = q := by
    simp only [State.axes, List.getElem_reverse, hback, List.getElem_idxOf]
  have hidx := (State.nodup_axes hn).idxOf_getElem _ hlt
  rwa [hget, eq_comm] at hidx

namespace Slice

/-- The slice in which the axes of the qubits `cs` are fixed at one. -/
def ones (axes cs : List Qubit) : Slice := axes.map fun q => if q ∈ cs then some true else none

end Slice

/-- Fixing the axes one after the other fixes those of all controls, in whatever order. -/
theorem controlSlice_eq {qubits cs : List Qubit} (hn : qubits.Nodup) (hcs : ∀ c ∈ cs, c ∈ qubits) :
    controlSlice qubits cs = Slice.ones (State.axes qubits) cs := by
  have hfold (f : Qubit → Option Bool) :
      cs.foldl (fun p c => p.set (axisOf qubits c) (some true)) ((State.axes qubits).map f) =
        (State.axes qubits).map fun q => if q ∈ cs then some true else f q := by
    induction cs generalizing f with
    | nil => simp
    | cons c cs ih =>
      obtain ⟨hc, hrest⟩ := List.forall_mem_cons.mp hcs
      have hset : ((State.axes qubits).map f).set (axisOf qubits c) (some true) =
          (State.axes qubits).map (Function.update f c (some true)) := by
        rw [(State.nodup_axes hn).map_update, if_pos (State.mem_axes.mpr hc),
          axisOf_eq_idxOf hn hc]
      rw [List.foldl_cons, hset, ih hrest]
      refine List.map_congr_left fun q _ => ?_
      by_cases hq : q = c <;> simp [hq]
  have hstart : List.replicate qubits.length none =
      (State.axes qubits).map fun _ => (none : Option Bool) := by
    rw [List.map_const', State.axes, List.length_reverse]
  rw [controlSlice, hstart, hfold]
  rfl

/-- The axes that are left when those of the controls are fixed. -/
def freeAxes (axes cs : List Qubit) : List Qubit := axes.filter fun q => q ∉ cs

theorem freeAxes_cons_of_mem {q : Qubit} {axes cs : List Qubit} (h : q ∈ cs) :
    freeAxes (q :: axes) cs = freeAxes axes cs := by simp [freeAxes, h]

theorem freeAxes_cons_of_not_mem {q : Qubit} {axes cs : List Qubit} (h : q ∉ cs) :
    freeAxes (q :: axes) cs = q :: freeAxes axes cs := by simp [freeAxes, h]

/-- Every control before the target lowers the number of its axis by one. -/
theorem idxOf_freeAxes {axes cs : List Qubit} (hn : axes.Nodup) (hcs : cs.Nodup) {q : Qubit}
    (hq : q ∈ axes) (hf : q ∉ cs) : (freeAxes axes cs).idxOf q +
      cs.countP (fun c => axes.idxOf c < axes.idxOf q) = axes.idxOf q := by
  induction axes generalizing cs with
  | nil => simp at hq
  | cons r axes ih =>
    obtain ⟨hr, hn⟩ := List.nodup_cons.mp hn
    by_cases he : r = q
    · subst he
      rw [freeAxes_cons_of_not_mem hf]
      simp
    have hmem : q ∈ axes := (List.mem_cons.mp hq).resolve_left (Ne.symm he)
    -- Behind the first axis all numbers are lower by one.
    have hbehind (c : Qubit) (hc : c ≠ r) : (r :: axes).idxOf c < (r :: axes).idxOf q ↔
        axes.idxOf c < axes.idxOf q := by
      rw [List.idxOf_cons_ne _ hc.symm, List.idxOf_cons_ne _ he]
      omega
    by_cases hrc : r ∈ cs
    · have hperm : cs.Perm (r :: cs.erase r) := List.perm_cons_erase hrc
      have hfree : freeAxes axes cs = freeAxes axes (cs.erase r) := by
        refine List.filter_congr fun c hc => ?_
        have hne : c ≠ r := fun e => hr (e ▸ hc)
        simp [List.mem_erase_of_ne hne]
      have hrest := ih hn (hcs.erase r) hmem fun h => hf (List.mem_of_mem_erase h)
      have hcount : (cs.erase r).countP (fun c => (r :: axes).idxOf c < (r :: axes).idxOf q) =
          (cs.erase r).countP (fun c => axes.idxOf c < axes.idxOf q) := by
        refine List.countP_congr fun c hc => ?_
        have hne : c ≠ r := fun e => (hcs.not_mem_erase) (e ▸ hc)
        simpa using hbehind c hne
      rw [freeAxes_cons_of_mem hrc, hperm.countP_eq, List.countP_cons, hcount, hfree,
        List.idxOf_cons_ne _ he]
      simp only [List.idxOf_cons_self, Nat.succ_eq_add_one, lt_add_iff_pos_left,
        Order.lt_add_one_iff, zero_le, decide_true, ↓reduceIte]
      omega
    · have hrest := ih hn hcs hmem hf
      have hcount : cs.countP (fun c => (r :: axes).idxOf c < (r :: axes).idxOf q) =
          cs.countP (fun c => axes.idxOf c < axes.idxOf q) := by
        refine List.countP_congr fun c hc => ?_
        have hne : c ≠ r := fun e => hrc (e ▸ hc)
        simpa using hbehind c hne
      rw [freeAxes_cons_of_not_mem hrc, hcount, List.idxOf_cons_ne _ he,
        List.idxOf_cons_ne _ he]
      omega

namespace Slice

variable {axes cs : List Qubit} (bits : Assignment)

theorem coordinates_ones :
    (ones axes cs).coordinates (axes.map bits) = (freeAxes axes cs).map bits := by
  induction axes with
  | nil => rfl
  | cons q axes ih =>
    by_cases hq : q ∈ cs
    · simpa [ones, freeAxes, hq, coordinates] using ih
    · simpa [ones, freeAxes, hq, coordinates] using ih

theorem contains_ones : (ones axes cs).contains (axes.map bits) = true ↔
    ∀ q ∈ axes, q ∈ cs → bits q = true := by
  induction axes with
  | nil => simp [ones, contains]
  | cons q axes ih =>
    rw [List.forall_mem_cons, ← ih]
    by_cases hq : q ∈ cs <;> simp [ones, hq, contains]

variable {bits}

theorem place_ones (h : ∀ c ∈ cs, bits c = true) :
    (ones axes cs).place ((freeAxes axes cs).map bits) = axes.map bits := by
  induction axes with
  | nil => rfl
  | cons q axes ih =>
    by_cases hq : q ∈ cs
    · simpa [ones, freeAxes, hq, place, h q hq] using ih
    · simpa [ones, freeAxes, hq, place] using ih

end Slice

/-! ## Gates on slices -/

theorem targetAxis_eq {qubits cs : List Qubit} (hn : qubits.Nodup) (hcs : cs.Nodup)
    (hmem : ∀ c ∈ cs, c ∈ qubits) {q : Qubit} (hq : q ∈ qubits) (hf : q ∉ cs) :
    targetAxis qubits cs q = (freeAxes (State.axes qubits) cs).idxOf q := by
  have hcount : cs.countP (fun c => axisOf qubits c < axisOf qubits q) =
      cs.countP (fun c => (State.axes qubits).idxOf c < (State.axes qubits).idxOf q) :=
    List.countP_congr fun c hc => by
      rw [axisOf_eq_idxOf hn hq, axisOf_eq_idxOf hn (hmem c hc)]
  have hrank := idxOf_freeAxes (State.nodup_axes hn) hcs (State.mem_axes.mpr hq) hf
  rw [targetAxis, hcount, axisOf_eq_idxOf hn hq]
  omega

/-- Contracting an axis and moving the new one back to its place mixes the entries that differ
along this axis. -/
theorem Axial.moveFirst_contract {axes : List Qubit} (hn : axes.Nodup) {q : Qubit} (hq : q ∈ axes)
    (m : Bool → Bool → ℂ) (a : Axial ℂ) (bits : Assignment) :
    moveFirst (axes.idxOf q) (contract m (axes.idxOf q) a) (axes.map bits) =
      ∑ b, m (bits q) b * a (axes.map (Function.update bits q b)) := by
  have hlt : axes.idxOf q < axes.length := List.idxOf_lt_length_of_mem hq
  have hhead : (axes.map bits).getD (axes.idxOf q) false = bits q := by
    simp [List.getD_eq_getElem?_getD, hlt]
  have hset (b : Bool) : ((axes.map bits).eraseIdx (axes.idxOf q)).insertIdx (axes.idxOf q) b =
      axes.map (Function.update bits q b) := by
    rw [List.insertIdx_eraseIdx_self (by rw [List.length_map]; exact hlt.ne), hn.map_update,
      if_pos hq]
  simp only [moveFirst, contract, hhead, hset]

/-- The gate on an array is the gate on the wave of the array. -/
theorem Gate.sliced_map {qubits : List Qubit} (hn : qubits.Nodup) {g : Gate ℝ} (h : g.On qubits)
    (a : Axial ℂ) (bits : Assignment) :
    g.sliced qubits a ((State.axes qubits).map bits) =
      g.act (fun bits => a ((State.axes qubits).map bits)) bits := by
  have hcs : ∀ c ∈ g.controls, c ∈ qubits := fun c hc =>
    h.qubits_mem c (List.mem_append_left _ hc)
  have hones : (Slice.ones (State.axes qubits) g.controls).contains
      ((State.axes qubits).map bits) = true ↔ ∀ c ∈ g.controls, bits c = true :=
    (Slice.contains_ones bits).trans
      ⟨fun hb c hc => hb c (State.mem_axes.mpr (hcs c hc)) hc, fun hb q _ hq => hb q hq⟩
  have hput (u : Axial ℂ) : (Slice.ones (State.axes qubits) g.controls).put u a
      ((State.axes qubits).map bits) = if ∀ c ∈ g.controls, bits c = true then
        u ((freeAxes (State.axes qubits) g.controls).map bits)
      else a ((State.axes qubits).map bits) := by
    simp only [Slice.put, hones, Slice.coordinates_ones]
  by_cases hb : ∀ c ∈ g.controls, bits c = true
  · cases ht : g.target with
    | none =>
      have hk : g.kind = .gphase := h.target_eq_none_iff.mp ht
      simp only [sliced, ht, controlSlice_eq hn hcs, hput, if_pos hb, act, hk, Kind.entry_gphase,
        Slice.get, Slice.place_ones hb]
      exact mul_comm _ _
    | some q =>
      have hk : g.kind ≠ .gphase := fun e => by simp [h.target_eq_none_iff.mpr e] at ht
      have hf : q ∉ g.controls := h.target_free q ht
      have hq : q ∈ qubits := h.qubits_mem q (by simp [Gate.qubits, ht])
      have hfree : q ∈ freeAxes (State.axes qubits) g.controls := by
        simp [freeAxes, State.mem_axes.mpr hq, hf]
      have hnodup : (freeAxes (State.axes qubits) g.controls).Nodup :=
        (State.nodup_axes hn).filter _
      have hbit (b : Bool) : ∀ c ∈ g.controls, Function.update bits q b c = true :=
        (Wave.ones_update hf bits b).mpr hb
      simp only [sliced, ht, controlSlice_eq hn hcs, hput, if_pos hb, act,
        targetAxis_eq hn h.controls_nodup hcs hq hf, Axial.moveFirst_contract hnodup hfree,
        Slice.get, Slice.place_ones (hbit _), Kind.unitary_eq_entry hk]
  · cases ht : g.target with
    | none => simp only [sliced, ht, controlSlice_eq hn hcs, hput, if_neg hb, act]
    | some q => simp only [sliced, ht, controlSlice_eq hn hcs, hput, if_neg hb, act]

end StateSynthesis
