import StateSynthesis.Proofs.Allocation
import StateSynthesis.Proofs.Nesting
import StateSynthesis.Proofs.OuterControls
import StateSynthesis.Session.Circuits

/-!
Sequences and circuits under further controls. Qubits that no gate of a sequence touches can control
every gate (`controlBy_of_disjoint`), and the sequence under them does what the sequence does where
they are one, and nothing elsewhere (`conditional_controlled`). A circuit gets the controls that it
lacks as further qubits, behind its own (`exists_joinControls`). Main statement:
`controlBy_conditional`.
-/
namespace StateSynthesis

open Sequence

/-! ## Sequences -/

namespace Sequence

theorem controlBy_of_disjoint {α : Type} [Scalar α] {cs : List Qubit} {gs : List (Gate α)}
    (hg : ∀ g ∈ gs, g.WellFormed) (hn : cs.Nodup) (hd : ∀ g ∈ gs, ∀ c ∈ cs, c ∉ g.qubits) :
    controlBy (cs.map Datum.qubit) gs = .ok (controlled cs gs) :=
  (controlBy_eq_ok_iff hg).mpr
    ⟨fun g hm => Gate.controllable_of_disjoint (hg g hm) hn (hd g hm), rfl⟩

theorem On.controlled_of_disjoint {α : Type} [Scalar α] {cs qs : List Qubit} {gs : List (Gate α)}
    (h : On qs gs) (hn : cs.Nodup) (hd : ∀ c ∈ cs, c ∉ qs) :
    On (cs ++ qs) (Sequence.controlled cs gs) := by
  intro k hk
  obtain ⟨g, hg, rfl⟩ := List.mem_map.mp hk
  have hc : g.Controllable cs := Gate.controllable_of_disjoint (h g hg).toWellFormed hn
    fun c hc hq => hd c hc ((h g hg).qubits_mem c hq)
  exact ((h g hg).mono fun q hq => List.mem_append_right _ hq).withControls_of hc
    fun c hc => List.mem_append_left _ hc

theorem conditional_controlled {cs qs : List Qubit} {gs : List (Gate ℝ)} (h : On qs gs)
    (hn : cs.Nodup) (hd : ∀ c ∈ cs, c ∉ qs) :
    Conditional (controlled cs gs) gs cs (cs ++ qs) :=
  conditional_of_act (h.controlled_of_disjoint hn hd) h (fun _ hq => List.mem_append_right _ hq) hd
    (act_controlled h hd)

end Sequence

/-! ## Circuits -/

/-- The circuit `d` has the name of `c`, its qubits at their places, and the qubits `cs` as well. -/
structure Circuit.Joins {α : Type} [Scalar α] (c : Circuit α) (cs : List Qubit) (d : Circuit α) :
    Prop where
  wellFormed : d.WellFormed
  name_eq : d.name = c.name
  qubits_kept : c.qubits <+: d.qubits
  mem_qubits : ∀ q, q ∈ d.qubits ↔ q ∈ c.qubits ∨ q ∈ cs

namespace Action

variable {α : Type} {s : Session α} {n : Nat} {c : Circuit α}

theorem returns_addQubit {q : Qubit} {d : Circuit α} (h : s.receivers[n]? = some (.circuit c))
    (hq : c.addQubit q = .ok d) : Returns (addQubit n (.qubit q)) s q
      { s with receivers := s.receivers.set n (.circuit d) } :=
  (returns_circuit h).bind ((returns_pure _ s).bind ((returns_ok hq s).bind
    ((returns_putReceiver n _ s).bind (returns_pure q _))))

theorem returns_putGates (h : s.receivers[n]? = some (.circuit c)) (gs : List (Gate α)) :
    Returns (do
        putReceiver n (.circuit { ← circuit n with gates := gs })
        return n) s n
      { s with receivers := s.receivers.set n (.circuit { c with gates := gs }) } :=
  (returns_circuit h).bind ((returns_putReceiver n _ s).bind (returns_pure n _))

variable [Scalar α]

/-- A control is in the circuit, or joins it as its last qubit. -/
theorem exists_join {q : Qubit} (h : s.receivers[n]? = some (.circuit c)) (hc : c.WellFormed)
    (hid : ∀ p ∈ c.qubits, p.identifier = q.identifier → p = q) :
    ∃ e, c.Joins [q] e ∧ ∀ ds t,
      Returns (joinControls n ds) { s with receivers := s.receivers.set n (.circuit e) } () t →
        Returns (joinControls n (.qubit q :: ds)) s () t := by
  by_cases hq : q ∈ c.qubits
  · refine ⟨c, ⟨hc, rfl, List.prefix_rfl, fun p => ?_⟩, fun ds t ht => ?_⟩
    · rw [List.mem_singleton]
      exact ⟨Or.inl, fun hp => hp.elim id fun e => e ▸ hq⟩
    · rw [Session.set_receiver_self h] at ht
      refine (returns_circuit h).bind ?_
      simpa [hq] using ht
  · have hfree : q.identifier ∉ c.qubits.map Qubit.identifier := by
      intro hm
      obtain ⟨p, hp, he⟩ := List.mem_map.mp hm
      exact hq (hid p hp he ▸ hp)
    have hadd : c.addQubit q = .ok { c with qubits := c.qubits ++ [q] } := if_neg hfree
    refine ⟨_, ⟨Circuit.addQubit_wellFormed hc hadd, rfl, List.prefix_append _ _, fun p => ?_⟩,
      fun ds t ht => (returns_circuit h).bind ?_⟩
    · exact List.mem_append
    · simpa [hq] using (returns_addQubit h hadd).bind ht

/-- Controls join a circuit if different qubits have different identifiers. -/
theorem exists_joinControls {cs : List Qubit} (h : s.receivers[n]? = some (.circuit c))
    (hc : c.WellFormed) (hid : ∀ p ∈ c.qubits ++ cs, ∀ q ∈ c.qubits ++ cs,
      p.identifier = q.identifier → p = q) :
    ∃ d, c.Joins cs d ∧ Returns (joinControls n (cs.map Datum.qubit)) s ()
      { s with receivers := s.receivers.set n (.circuit d) } := by
  induction cs generalizing s c with
  | nil =>
    refine ⟨c, ⟨hc, rfl, List.prefix_rfl, by simp⟩, ?_⟩
    rw [Session.set_receiver_self h]
    exact returns_pure () s
  | cons q cs ih =>
    obtain ⟨e, he, hstep⟩ := exists_join h hc fun p hp => hid p (by simp [hp]) q (by simp)
    have hmem (p : Qubit) (hp : p ∈ e.qubits ++ cs) : p ∈ c.qubits ++ q :: cs := by
      simpa [he.mem_qubits, or_assoc] using hp
    have hset : (s.receivers.set n (.circuit e))[n]? = some (.circuit e) :=
      List.getElem?_set_self (List.getElem?_eq_some_iff.mp h).1
    obtain ⟨d, hd, hrest⟩ := ih (s := { s with receivers := s.receivers.set n _ }) hset
      he.wellFormed fun p hp r hr => hid p (hmem p hp) r (hmem r hr)
    rw [List.set_set] at hrest
    refine ⟨d, ⟨hd.wellFormed, hd.name_eq.trans he.name_eq, he.qubits_kept.trans hd.qubits_kept,
      fun p => ?_⟩, hstep _ _ hrest⟩
    rw [hd.mem_qubits, he.mem_qubits, List.mem_singleton, List.mem_cons, or_assoc]

/-- The circuit that is derived has the gates under controls on the joined qubits. -/
theorem exists_derive_control {cs : List Qubit} {controls : Datum α}
    (hcs : controls.qubitItems? = some (cs.map Datum.qubit))
    (h : s.receivers[n]? = some (.circuit c)) (hc : c.WellFormed)
    (hid : ∀ p ∈ c.qubits ++ cs, ∀ q ∈ c.qubits ++ cs, p.identifier = q.identifier → p = q)
    {gs : List (Gate α)} (hgs : Sequence.controlBy (cs.map Datum.qubit) c.gates = .ok gs)
    (hon : On (cs ++ c.qubits) gs) :
    ∃ d, c.Joins cs d ∧ d.gates = gs ∧ Returns (derive n (.control controls)) s
      s.receivers.length { s with receivers := s.receivers ++ [.circuit d] } := by
  have hclear : c.clear.WellFormed := ⟨hc.identifiers_nodup, by simp [Circuit.clear],
    by simp [Circuit.clear]⟩
  have hlast (r : Sink α) : (s.receivers ++ [r])[s.receivers.length]? = some r :=
    List.getElem?_concat_length
  have hset (r r' : Sink α) : (s.receivers ++ [r]).set s.receivers.length r' =
      s.receivers ++ [r'] := by simp
  obtain ⟨d, hd, hjoin⟩ := exists_joinControls
    (s := { s with receivers := s.receivers ++ [.circuit c.clear] }) (hlast _) hclear hid
  rw [hset] at hjoin
  have hmem (q : Qubit) (hq : q ∈ cs ++ c.qubits) : q ∈ d.qubits :=
    (hd.mem_qubits q).mpr (List.mem_append.mp hq).symm
  refine ⟨{ d with gates := gs }, ⟨⟨hd.wellFormed.identifiers_nodup,
    fun g hg => (hon g hg).toWellFormed, fun g hg q hq => hmem q ((hon g hg).qubits_mem q hq)⟩,
    hd.name_eq, hd.qubits_kept, hd.mem_qubits⟩, rfl, ?_⟩
  have hput := returns_putGates (s := { s with receivers := s.receivers ++ [.circuit d] })
    (hlast (.circuit d)) gs
  rw [hset] at hput
  refine (returns_receiver h).bind ?_
  simp only [deriveControlled, hcs]
  exact (returns_pure _ s).bind ((returns_createReceiver _ s).bind (hjoin.bind
    ((returns_ok hgs _).bind hput)))

end Action

/-! ## The result -/

/-- **Control.** Gates that are put under controls one by one are under them as a whole: where some
control is zero nothing happens, and where all are one the gates do what they do without them,
global phases included. These are the gates of the circuit that is derived for the controls. -/
theorem controlBy_conditional {gs : List (Gate ℝ)} {cs : List Qubit} (hg : ∀ g ∈ gs, g.Runnable)
    (hn : cs.Nodup) (hd : ∀ g ∈ gs, ∀ c ∈ cs, c ∉ g.qubits) :
    ∃ hs, Sequence.controlBy (cs.map Datum.qubit) gs = .ok hs ∧
      Conditional hs gs cs (cs ++ gs.flatMap Gate.qubits) ∧
      ∀ (s : Session ℝ) (n : ℕ) (c : Circuit ℝ) (controls : Datum ℝ),
        controls.qubitItems? = some (cs.map Datum.qubit) →
        s.receivers[n]? = some (.circuit c) → c.WellFormed → c.gates = gs →
        (∀ p ∈ c.qubits ++ cs, ∀ q ∈ c.qubits ++ cs, p.identifier = q.identifier → p = q) →
        ∃ d, c.Joins cs d ∧ d.gates = hs ∧
          Action.Returns (Action.derive n (.control controls)) s s.receivers.length
            { s with receivers := s.receivers ++ [.circuit d] } := by
  have hfree : ∀ c ∈ cs, c ∉ gs.flatMap Gate.qubits := fun c hc hm => by
    obtain ⟨g, hgm, hq⟩ := List.mem_flatMap.mp hm
    exact hd g hgm c hc hq
  have hon : On (gs.flatMap Gate.qubits) gs := fun g hm =>
    ⟨hg g hm, fun q hq => List.mem_flatMap.mpr ⟨g, hm, hq⟩⟩
  have hgs := controlBy_of_disjoint (fun g hm => (hg g hm).toWellFormed) hn hd
  refine ⟨_, hgs, conditional_controlled hon hn hfree, ?_⟩
  rintro s n c controls hcs hs hc rfl hid
  have hmono : ∀ q ∈ cs ++ c.gates.flatMap Gate.qubits, q ∈ cs ++ c.qubits := fun q hq => by
    refine List.mem_append.mpr ((List.mem_append.mp hq).imp_right fun hm => ?_)
    obtain ⟨g, hgm, hq⟩ := List.mem_flatMap.mp hm
    exact hc.gate_qubits g hgm q hq
  exact Action.exists_derive_control hcs hs hc hid hgs
    ((hon.controlled_of_disjoint hn hfree).mono hmono)

/-- A global phase and a controlled flip under a qubit that the circuit does not have yet. -/
theorem controlBy_conditional_phase :
    ∃ hs, Sequence.controlBy [.qubit ⟨2, "c"⟩]
        [Gate.gphase (1 / 2 : ℝ) [], Gate.x ⟨1, "b"⟩ [⟨0, "a"⟩]] = .ok hs ∧
      Conditional hs [Gate.gphase (1 / 2) [], Gate.x ⟨1, "b"⟩ [⟨0, "a"⟩]] [⟨2, "c"⟩]
        [⟨2, "c"⟩, ⟨0, "a"⟩, ⟨1, "b"⟩] ∧
      ∃ d : Circuit ℝ, d.gates = hs ∧ Action.Returns (Action.derive 0 (.control (.qubit ⟨2, "c"⟩)))
        ⟨3, 0, [.circuit ⟨"main", [⟨0, "a"⟩, ⟨1, "b"⟩],
          [Gate.gphase (1 / 2) [], Gate.x ⟨1, "b"⟩ [⟨0, "a"⟩]]⟩], [], 0, 0⟩ 1
        ⟨3, 0, [.circuit ⟨"main", [⟨0, "a"⟩, ⟨1, "b"⟩],
          [Gate.gphase (1 / 2) [], Gate.x ⟨1, "b"⟩ [⟨0, "a"⟩]]⟩, .circuit d], [], 0, 0⟩ := by
  have hon : On [⟨0, "a"⟩, ⟨1, "b"⟩]
      [Gate.gphase (1 / 2 : ℝ) [], Gate.x ⟨1, "b"⟩ [⟨0, "a"⟩]] :=
    on_cons.mpr ⟨Gate.gphase_on _ List.nodup_nil (by simp),
      on_cons.mpr ⟨Gate.x_on (by decide) (by simp), on_nil _⟩⟩
  have hc : (⟨"main", [⟨0, "a"⟩, ⟨1, "b"⟩],
      [Gate.gphase (1 / 2) [], Gate.x ⟨1, "b"⟩ [⟨0, "a"⟩]]⟩ : Circuit ℝ).WellFormed :=
    ⟨by decide, fun g hg => (hon g hg).toWellFormed, fun g hg => (hon g hg).qubits_mem⟩
  have hn : [(⟨2, "c"⟩ : Qubit)].Nodup := by decide
  have hfree : ∀ c ∈ [(⟨2, "c"⟩ : Qubit)], c ∉ [(⟨0, "a"⟩ : Qubit), ⟨1, "b"⟩] := by decide
  obtain ⟨hs, hgs, hcond, hderive⟩ := controlBy_conditional (fun g hg => (hon g hg).toRunnable) hn
    fun g hg c hc hq => hfree c hc ((hon g hg).qubits_mem c hq)
  obtain ⟨d, -, hd, hrun⟩ := hderive ⟨3, 0, [.circuit ⟨"main", [⟨0, "a"⟩, ⟨1, "b"⟩], _⟩], [], 0, 0⟩
    0 _ (.qubit ⟨2, "c"⟩) rfl rfl hc rfl (by decide)
  exact ⟨hs, hgs, hcond, d, hd, hrun⟩

end StateSynthesis
