import StateSynthesis.Proofs.Indexing
import StateSynthesis.Proofs.Wiring

/-!
Circuits on some of the qubits of another circuit. Once the bits of the other qubits are fixed, a
wave on all qubits is a wave on those of the smaller circuit (`Wave.slice`), and the gates with
their qubits renamed act on each such slice as the gates themselves (`Sequence.slice_act`). By
index, the bits of the smaller circuit are gathered from the places of its qubits and scattered to
them (`gather_index`, `scatter_index`). Main statement: `extend_along`.
-/
namespace StateSynthesis

open Assignment Statevector

/-! ## Bits at places -/

/-- The places among `rs` of the images of the qubits `qs`. -/
def places (f : Qubit → Qubit) (qs rs : List Qubit) : List ℕ := qs.map fun q => rs.idxOf (f q)

/-- The number whose bits are those of `x` at the given places, in order. -/
def gather : List ℕ → ℕ → ℕ
  | [], _ => 0
  | p :: ps, x => (x.testBit p).toNat + 2 * gather ps x

/-- The number `x` with the bits of `j`, in order, at the given places. -/
def scatter : List ℕ → ℕ → ℕ → ℕ
  | [], _, x => x
  | p :: ps, j, x => withBit p (j.testBit 0) (scatter ps (j / 2) x)

/-! ## Assignments on some of the qubits -/

namespace Assignment

/-- The assignment `bits` with the bits that `x` has for the qubits `qs` at their images. -/
def plug (f : Qubit → Qubit) : List Qubit → Assignment → Assignment → Assignment
  | [], _, bits => bits
  | q :: qs, x, bits => Function.update (plug f qs x bits) (f q) (x q)

section Plug

variable {f : Qubit → Qubit} {qs : List Qubit} {q r : Qubit}

theorem plug_of_forall_ne (h : ∀ q ∈ qs, f q ≠ r) (x bits : Assignment) :
    plug f qs x bits r = bits r := by
  induction qs with
  | nil => rfl
  | cons q qs ih =>
    obtain ⟨hq, hqs⟩ := List.forall_mem_cons.mp h
    rw [plug, Function.update_of_ne hq.symm, ih hqs]

theorem plug_apply (hf : Set.InjOn f {q | q ∈ qs}) (hq : q ∈ qs) (x bits : Assignment) :
    plug f qs x bits (f q) = x q := by
  induction qs with
  | nil => cases hq
  | cons p qs ih =>
    by_cases hp : q = p
    · rw [plug, hp, Function.update_self]
    · have hmem : q ∈ qs := (List.mem_cons.mp hq).resolve_left hp
      have hne : f q ≠ f p := fun e => hp (hf hq (List.mem_cons_self ..) e)
      rw [plug, Function.update_of_ne hne,
        ih (hf.mono fun _ h => List.mem_cons_of_mem _ h) hmem]

theorem plug_congr {x y : Assignment} (h : ∀ q ∈ qs, x q = y q) (bits : Assignment) :
    plug f qs x bits = plug f qs y bits := by
  induction qs with
  | nil => rfl
  | cons q qs ih =>
    obtain ⟨hq, hqs⟩ := List.forall_mem_cons.mp h
    rw [plug, plug, ih hqs, hq]

/-- A bit of the smaller assignment is the bit at the image of its qubit. -/
theorem plug_update (hf : Set.InjOn f {q | q ∈ qs}) (hq : q ∈ qs) (x bits : Assignment) (b : Bool) :
    plug f qs (Function.update x q b) bits = Function.update (plug f qs x bits) (f q) b := by
  funext r
  by_cases hr : ∃ p ∈ qs, f p = r
  · obtain ⟨p, hp, rfl⟩ := hr
    rw [plug_apply hf hp]
    by_cases hpq : p = q
    · rw [hpq, Function.update_self, Function.update_self]
    · have hne : f p ≠ f q := fun e => hpq (hf hp hq e)
      rw [Function.update_of_ne hpq, Function.update_of_ne hne, plug_apply hf hp]
  · have hmiss : ∀ p ∈ qs, f p ≠ r := fun p hp e => hr ⟨p, hp, e⟩
    rw [Function.update_of_ne (hmiss q hq).symm, plug_of_forall_ne hmiss, plug_of_forall_ne hmiss]

theorem plug_self (hf : Set.InjOn f {q | q ∈ qs}) (bits : Assignment) :
    plug f qs (bits ∘ f) bits = bits := by
  funext r
  by_cases hr : ∃ q ∈ qs, f q = r
  · obtain ⟨q, hq, rfl⟩ := hr
    exact plug_apply hf hq _ _
  · exact plug_of_forall_ne (fun q hq e => hr ⟨q, hq, e⟩) _ _

end Plug

/-! ## Assignments by index -/

variable {f : Qubit → Qubit} {qs rs : List Qubit}

theorem ofIndex_cons_of_ne {q r : Qubit} (h : q ≠ r) (qs : List Qubit) (j : ℕ) :
    ofIndex (q :: qs) j r = ofIndex qs (j / 2) r := by
  simp [ofIndex, List.idxOf_cons_ne _ h, Nat.testBit_succ]

theorem gather_index (hm : ∀ q ∈ qs, f q ∈ rs) (bits : Assignment) :
    gather (places f qs rs) (index rs bits) = index qs (bits ∘ f) := by
  induction qs with
  | nil => rfl
  | cons q qs ih =>
    obtain ⟨hq, hqs⟩ := List.forall_mem_cons.mp hm
    rw [places, List.map_cons, gather, testBit_index hq, ← places, ih hqs]
    rfl

theorem scatter_index (hqs : qs.Nodup) (hrs : rs.Nodup) (hm : ∀ q ∈ qs, f q ∈ rs)
    (bits : Assignment) (j : ℕ) : scatter (places f qs rs) j (index rs bits) =
      index rs (plug f qs (ofIndex qs j) bits) := by
  induction qs generalizing j with
  | nil => rfl
  | cons q qs ih =>
    obtain ⟨hq, hn⟩ := List.nodup_cons.mp hqs
    obtain ⟨hfq, hfqs⟩ := List.forall_mem_cons.mp hm
    have hhead : ofIndex (q :: qs) j q = j.testBit 0 := by simp [ofIndex]
    have htail : plug f qs (ofIndex (q :: qs) j) bits = plug f qs (ofIndex qs (j / 2)) bits :=
      plug_congr (fun r hr => ofIndex_cons_of_ne (fun e : q = r => hq (e ▸ hr)) qs j) bits
    rw [places, List.map_cons, scatter, ← places, ih hn hfqs, plug, index_update_of_mem hrs hfq,
      hhead, htail]

end Assignment

/-! ## Slices of waves -/

/-- The wave on the qubits `qs` that is left if the qubits apart from their images have the bits of
an assignment. -/
def Wave.slice (f : Qubit → Qubit) (qs : List Qubit) (bits : Assignment) (ψ : Wave) : Wave :=
  fun x => ψ (plug f qs x bits)

open Wave

variable {f : Qubit → Qubit} {qs : List Qubit}

theorem Gate.slice_act (hf : Set.InjOn f {q | q ∈ qs}) {g : Gate ℝ} (h : g.On qs)
    (bits : Assignment) (ψ : Wave) :
    slice f qs bits ((g.relabel f).act ψ) = g.act (slice f qs bits ψ) := by
  funext x
  have hcontrols : (∀ c ∈ (g.relabel f).controls, plug f qs x bits c = true) ↔
      ∀ c ∈ g.controls, x c = true := by
    refine List.forall_mem_map.trans (forall₂_congr fun c hc => ?_)
    rw [plug_apply hf (h.qubits_mem c (List.mem_append_left _ hc))]
  simp only [slice, act, hcontrols]
  split
  · cases ht : g.target with
    | none => simp only [relabel, ht, Option.map_none]
    | some q =>
      have hq : q ∈ qs := h.qubits_mem q (by simp [Gate.qubits, ht])
      simp only [relabel, ht, Option.map_some, plug_apply hf hq, plug_update hf hq]
  · rfl

theorem Sequence.slice_act (hf : Set.InjOn f {q | q ∈ qs}) {gs : List (Gate ℝ)} (h : On qs gs)
    (bits : Assignment) (ψ : Wave) :
    slice f qs bits (act (gs.map (Gate.relabel f)) ψ) = act gs (slice f qs bits ψ) := by
  induction gs generalizing ψ with
  | nil => rfl
  | cons g gs ih =>
    obtain ⟨hg, hgs⟩ := on_cons.mp h
    rw [List.map_cons, act_cons, act_cons, ih hgs, Gate.slice_act hf hg]

/-- A slice looks at the qubits of the smaller circuit only. -/
theorem Wave.slice_eq_lift (bits : Assignment) (ψ : Wave) :
    slice f qs bits ψ = Bits.lift fun y : Bits qs => ψ (plug f qs (Bits.extend y) bits) := by
  funext x
  exact congrArg ψ (plug_congr (fun q hq => (Bits.extend_restrict hq x).symm) bits)

/-- Gates with their qubits renamed multiply the amplitudes along the images of the qubits by the
matrix of the gates. -/
theorem Sequence.act_relabel (hn : qs.Nodup) (hf : Set.InjOn f {q | q ∈ qs}) {gs : List (Gate ℝ)}
    (h : On qs gs) (ψ : Wave) (bits : Assignment) :
    act (gs.map (Gate.relabel f)) ψ bits = ∑ j : Fin (2 ^ qs.length),
      matrix qs gs (Bits.restrict qs (bits ∘ f)) ((Bits.number hn).symm j) *
        ψ (plug f qs (ofIndex qs j) bits) := by
  -- Every assignment lies in the slice of its own bits apart from the images.
  have hself (φ : Wave) : φ bits = slice f qs bits φ (bits ∘ f) :=
    congrArg φ (plug_self hf bits).symm
  have hplug (j : Fin (2 ^ qs.length)) : plug f qs (Bits.extend ((Bits.number hn).symm j)) bits =
      plug f qs (ofIndex qs j) bits :=
    plug_congr (fun q hq => Bits.extend_restrict hq (ofIndex qs j)) bits
  calc act (gs.map (Gate.relabel f)) ψ bits
      = slice f qs bits (act (gs.map (Gate.relabel f)) ψ) (bits ∘ f) := hself _
    _ = act gs (slice f qs bits ψ) (bits ∘ f) := by rw [slice_act hf h]
    _ = ∑ y, matrix qs gs (Bits.restrict qs (bits ∘ f)) y *
          ψ (plug f qs (Bits.extend y) bits) := by
        rw [slice_eq_lift, act_lift h]
        rfl
    _ = _ := by
        rw [← (Bits.number hn).symm.sum_comp]
        simp only [hplug]

/-! ## The images of the basis states -/

namespace Circuit

/-- The columns of the unitary of a circuit are those of the matrix of its gates. -/
theorem exists_unitary {c : Circuit ℝ} (hn : c.qubits.Nodup) (h : Sequence.On c.qubits c.gates) :
    ∃ columns, c.unitary = .ok columns ∧
      ∀ (j : Fin (2 ^ c.qubits.length)) (bits : Assignment),
        entry (columns.getD j []) (index c.qubits bits) =
          Sequence.matrix c.qubits c.gates (Bits.restrict c.qubits bits)
            ((Bits.number hn).symm j) := by
  choose t ht ha using fun j : ℕ => Sequence.applyTo_amplitudes hn h (State.basis c.qubits j)
  refine ⟨(List.range (dimension c.qubits.length)).map fun j => Tensor.toList (t j), ?_,
    fun j bits => ?_⟩
  · refine mapM_eq_ok_iff.mpr (List.forall₂_map_right_iff.mpr (List.forall₂_same.mpr fun j _ => ?_))
    rw [applyTo, ht]
    rfl
  have hcolumn : ((List.range (dimension c.qubits.length)).map fun j =>
      Tensor.toList (t j)).getD j [] = Tensor.toList (t j) := by
    simp [List.getD_eq_getElem?_getD, dimension_eq_pow]
  have hbasis : State.amplitudes (State.basis (α := ℝ) c.qubits j) =
      Pi.single ((Bits.number hn).symm j) 1 := by
    funext y
    rw [State.amplitudes, State.wave_basis, Pi.single_apply]
    refine if_congr ?_ rfl rfl
    rw [Equiv.eq_symm_apply, Fin.ext_iff]
    rfl
  rw [hcolumn, State.entry_toList, ← State.lift_amplitudes, ha, hbasis]
  simp [Bits.lift, Matrix.mulVec_single]

/-- A circuit whose qubits are listed in another order has the same state, with the bits of the
indices in that order. -/
theorem statevector_perm {c : Circuit ℝ} (hn : c.qubits.Nodup) (h : Sequence.On c.qubits c.gates)
    {qubits : List Qubit} (hp : qubits.Perm c.qubits) :
    ∃ u v, c.statevector = .ok u ∧ ({ c with qubits := qubits } : Circuit ℝ).statevector = .ok v ∧
      ∀ x < 2 ^ qubits.length,
        entry v x = entry u (gather (places id c.qubits qubits) x) := by
  obtain ⟨t, ht, hw⟩ := Sequence.realises_act h c.qubits hn (fun _ hq => hq)
    (State.basis c.qubits 0)
  obtain ⟨t', ht', hw'⟩ := Sequence.realises_act h qubits (hp.nodup_iff.mpr hn)
    (fun _ hq => hp.mem_iff.mpr hq) (State.basis qubits 0)
  have hsame : State.wave t' = State.wave t := by
    have hzero : State.wave (State.basis (α := ℝ) qubits 0) =
        State.wave (State.basis c.qubits 0) := by
      funext bits
      simp only [State.wave_basis, index_eq_zero_iff, hp.mem_iff]
    rw [hw', hw, hzero]
  refine ⟨Tensor.toList t, Tensor.toList t', ?_, ?_, fun x hx => ?_⟩
  · rw [statevector, applyTo, ht]
    rfl
  · rw [statevector, applyTo, ht']
    rfl
  · have hx' : index qubits (ofIndex qubits x) = x := index_ofIndex (hp.nodup_iff.mpr hn) hx
    have hgather : gather (places id c.qubits qubits) x = index c.qubits (ofIndex qubits x) := by
      have hmem : ∀ q ∈ c.qubits, id q ∈ qubits := fun q hq => hp.mem_iff.mpr hq
      exact (congrArg _ hx').symm.trans (gather_index hmem _)
    calc entry (Tensor.toList t') x
        = State.wave t' (ofIndex qubits x) := by rw [← State.entry_toList, hx']
      _ = entry (Tensor.toList t) (index c.qubits (ofIndex qubits x)) := by
          rw [hsame, State.entry_toList]
      _ = _ := by rw [hgather]

end Circuit

/-- By index, the gates of a circuit with their qubits renamed act as the unitary of the circuit on
the bits at the places of the images, and leave the other bits alone. -/
theorem Circuit.applyTo_relabel {c d : Circuit ℝ} (hc : c.qubits.Nodup) (hd : d.qubits.Nodup)
    (h : Sequence.On d.qubits d.gates) (hf : Set.InjOn f {q | q ∈ d.qubits})
    (hm : ∀ q ∈ d.qubits, f q ∈ c.qubits) :
    ∃ columns, d.unitary = .ok columns ∧ ∀ v : State ℝ (State.axes c.qubits),
      ∃ t, Sequence.applyTo (d.gates.map (Gate.relabel f)) v = .ok t ∧
        ∀ x < 2 ^ c.qubits.length, entry (Tensor.toList t) x = ∑ j : Fin (2 ^ d.qubits.length),
          entry (columns.getD j []) (gather (places f d.qubits c.qubits) x) *
            entry (Tensor.toList v) (scatter (places f d.qubits c.qubits) j x) := by
  obtain ⟨columns, hcolumns, hentry⟩ := exists_unitary hd h
  have hrelabel : Sequence.On c.qubits (d.gates.map (Gate.relabel f)) :=
    List.forall_mem_map.mpr fun g hg => (h g hg).relabel hf hm
  refine ⟨columns, hcolumns, fun v => ?_⟩
  obtain ⟨t, ht, hw⟩ := Sequence.realises_act hrelabel c.qubits hc (fun _ hq => hq) v
  refine ⟨t, ht, fun x hx => ?_⟩
  obtain ⟨bits, rfl⟩ : ∃ bits, index c.qubits bits = x := ⟨_, index_ofIndex hc hx⟩
  simp only [gather_index hm, scatter_index hd hc hm, hentry, State.entry_toList]
  rw [hw, Sequence.act_relabel hd hf h]

/-! ## The result -/

open StateSynthesis.Action

/-- **Plugging in.** A circuit is plugged into another one along a wiring that is one-to-one: it
gains the gates with their qubits renamed, and these do to every state what the unitary of the
smaller circuit does to the bits at the images of its qubits. Another order of the qubits of a
circuit is another order of the bits of its state. A wiring that takes every qubit to itself does
what is done without a wiring. Along any wiring, all gates are placed or those before the first one
that is refused. -/
theorem extend_along {s : Session ℝ} {n m : ℕ} {c d : Circuit ℝ} (hnm : m ≠ n)
    (hn : s.receivers[n]? = some (.circuit c)) (hm : s.receivers[m]? = some (.circuit d))
    (hc : c.WellFormed) (hd : d.WellFormed) :
    ((∀ g ∈ d.gates, g.kind = .gphase → g.target = none) →
      (∀ (w : Wiring ℝ) (f : Qubit → Qubit), w.Embeds f d.qubits c.qubits →
        Returns (extend n (some m) (some w)) s ()
          { s with
            receivers :=
              s.receivers.set n ((Sink.circuit c).extended (d.gates.map (Gate.relabel f))) } ∧
        ∃ columns, d.unitary = .ok columns ∧ ∀ v : State ℝ (State.axes c.qubits),
          ∃ t, Sequence.applyTo (d.gates.map (Gate.relabel f)) v = .ok t ∧
            ∀ x < 2 ^ c.qubits.length,
              entry (Tensor.toList t) x = ∑ j : Fin (2 ^ d.qubits.length),
                entry (columns.getD j []) (gather (places f d.qubits c.qubits) x) *
                  entry (Tensor.toList v) (scatter (places f d.qubits c.qubits) j x)) ∧
      ∀ qubits : List Qubit, qubits.Perm d.qubits → ∃ u v, d.statevector = .ok u ∧
        ({ d with qubits := qubits } : Circuit ℝ).statevector = .ok v ∧
        ∀ x < 2 ^ qubits.length, entry v x = entry u (gather (places id d.qubits qubits) x)) ∧
    (∀ w : Wiring ℝ, w.Fixes d.qubits →
      (extend n (some m) (some w)).run.run s = (extend n (some m) none).run.run s) ∧
    ∀ w : Wiring ℝ,
      (∃ hs, List.Forall₂ (Gate.Placed w c.qubits) d.gates hs ∧
        Returns (extend n (some m) (some w)) s ()
          { s with receivers := s.receivers.set n ((Sink.circuit c).extended hs) }) ∨
      ∃ taken g rest hs f, d.gates = taken ++ g :: rest ∧
        List.Forall₂ (Gate.Placed w c.qubits) taken hs ∧ g.Refused w c f ∧
        Fails (extend n (some m) (some w)) s f
          { s with receivers := s.receivers.set n ((Sink.circuit c).extended hs) } := by
  have hgates : ∀ g ∈ d.gates, g.WellFormed ∧ ∀ q ∈ g.qubits, q ∈ d.qubits := fun g hg =>
    ⟨hd.gate_wellFormed g hg, hd.gate_qubits g hg⟩
  refine ⟨fun hp => ?_, fun w hw => ?_, fun w => ?_⟩
  · have hon : Sequence.On d.qubits d.gates := fun g hg =>
      ⟨⟨hd.gate_wellFormed g hg, hp g hg⟩, hd.gate_qubits g hg⟩
    refine ⟨fun w f hw => ⟨returns_extend hnm hn hm (hw.extend_eq hgates), ?_⟩, fun qubits hq =>
      Circuit.statevector_perm hd.qubits_nodup hon hq⟩
    exact Circuit.applyTo_relabel hc.qubits_nodup hd.qubits_nodup hon hw.injOn hw.maps_mem
  · rw [run_extend hnm hn hm, run_extend hnm hn hm, hw.extend_eq hgates]
  · rcases Circuit.extend_placed_or_refused w hd.gate_wellFormed c with
      ⟨hs, hhs, he⟩ | ⟨taken, g, rest, hs, f, hsplit, hhs, hf, he⟩
    · exact Or.inl ⟨hs, hhs, returns_extend hnm hn hm he⟩
    · exact Or.inr ⟨taken, g, rest, hs, f, hsplit, hhs, hf, fails_extend hnm hn hm he⟩

/-- A controlled flip between two qubits is plugged in the other way round. -/
theorem extend_along_swapped :
    Returns (extend (α := ℝ) 0 (some 1) (some (Wiring.pairs
          (fun q => if q = ⟨2, "p"⟩ then ⟨1, "b"⟩ else ⟨0, "a"⟩) [⟨2, "p"⟩, ⟨3, "q"⟩])))
        ⟨4, 0, [.circuit ⟨"outer", [⟨0, "a"⟩, ⟨1, "b"⟩], []⟩,
          .circuit ⟨"inner", [⟨2, "p"⟩, ⟨3, "q"⟩], [Gate.x ⟨3, "q"⟩ [⟨2, "p"⟩]]⟩], [], 0, 0⟩ ()
        ⟨4, 0, [.circuit ⟨"outer", [⟨0, "a"⟩, ⟨1, "b"⟩], [Gate.x ⟨0, "a"⟩ [⟨1, "b"⟩]]⟩,
          .circuit ⟨"inner", [⟨2, "p"⟩, ⟨3, "q"⟩], [Gate.x ⟨3, "q"⟩ [⟨2, "p"⟩]]⟩], [], 0, 0⟩ ∧
      ∃ columns, (⟨"inner", [⟨2, "p"⟩, ⟨3, "q"⟩], [Gate.x ⟨3, "q"⟩ [⟨2, "p"⟩]]⟩ :
          Circuit ℝ).unitary = .ok columns ∧
        ∃ t, Sequence.applyTo [Gate.x ⟨0, "a"⟩ [⟨1, "b"⟩]]
            (State.basis (α := ℝ) [⟨0, "a"⟩, ⟨1, "b"⟩] 3) = .ok t ∧
          entry (Tensor.toList t) 2 = ∑ j : Fin 4, entry (columns.getD j []) 1 *
            entry (Tensor.toList (State.basis (α := ℝ) [⟨0, "a"⟩, ⟨1, "b"⟩] 3))
              (scatter [1, 0] j 2) := by
  have hc : (⟨"outer", [⟨0, "a"⟩, ⟨1, "b"⟩], []⟩ : Circuit ℝ).WellFormed :=
    ⟨by decide, by simp, by simp⟩
  have hx : (Gate.x (α := ℝ) ⟨3, "q"⟩ [⟨2, "p"⟩]).On [⟨2, "p"⟩, ⟨3, "q"⟩] :=
    Gate.x_on (by decide) (by decide)
  have hd : (⟨"inner", [⟨2, "p"⟩, ⟨3, "q"⟩], [Gate.x ⟨3, "q"⟩ [⟨2, "p"⟩]]⟩ :
      Circuit ℝ).WellFormed :=
    ⟨by decide, by simpa using hx.toWellFormed, by simpa using hx.qubits_mem⟩
  obtain ⟨hplug, -⟩ := extend_along (n := 0) (m := 1) (s := ⟨4, 0,
    [.circuit ⟨"outer", [⟨0, "a"⟩, ⟨1, "b"⟩], []⟩, .circuit ⟨"inner", [⟨2, "p"⟩, ⟨3, "q"⟩],
      [Gate.x ⟨3, "q"⟩ [⟨2, "p"⟩]]⟩], [], 0, 0⟩) (by decide) rfl rfl hc hd
  obtain ⟨hembeds, -⟩ := hplug (by simpa using hx.phase_untargeted)
  obtain ⟨hreturns, columns, hcolumns, hact⟩ := hembeds _
    (fun q => if q = ⟨2, "p"⟩ then ⟨1, "b"⟩ else ⟨0, "a"⟩)
    (Wiring.embeds_pairs (by simp [Set.InjOn]) (by simp))
  obtain ⟨t, ht, hentry⟩ := hact (State.basis [⟨0, "a"⟩, ⟨1, "b"⟩] 3)
  exact ⟨hreturns, columns, hcolumns, t, ht, hentry 2 (by decide)⟩

end StateSynthesis
