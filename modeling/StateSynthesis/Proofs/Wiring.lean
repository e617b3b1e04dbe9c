import StateSynthesis.Circuit.Extend
import StateSynthesis.Proofs.Reading

/-!
Plugging a circuit into another one along a wiring. The wiring gives a gate another target and other
controls, and may fail to do so: a qubit is not wired, no gate can be made of what is found, or the
gate that is made is on strange qubits (`Gate.Placed`, `Gate.Refused`). One gate is placed or
refused (`extendBy_placed_or_refused`), and a sequence is placed as a whole or up to the first gate
that is refused (`extend_placed_or_refused`). A wiring that is one-to-one into the qubits of the
circuit places the gates with their qubits renamed (`Wiring.Embeds.extend_eq`), and one that takes
every qubit to itself does what is done without a wiring (`Wiring.Fixes.extend_eq`).
-/
namespace StateSynthesis

variable {α β δ : Type}

/-! ## Renamed gates -/

namespace Gate

/-- The gate with its qubits renamed. -/
def relabel (f : Qubit → Qubit) (g : Gate α) : Gate α :=
  { g with target := g.target.map f, controls := g.controls.map f }

theorem qubits_relabel (f : Qubit → Qubit) (g : Gate α) :
    (g.relabel f).qubits = g.qubits.map f := by
  cases ht : g.target <;> simp [qubits, relabel, ht]

variable [Scalar α] {f : Qubit → Qubit} {g : Gate α}

theorem WellFormed.relabel (h : g.WellFormed) (hf : Set.InjOn f {q | q ∈ g.qubits}) :
    (g.relabel f).WellFormed where
  target_or_phase := h.target_or_phase.imp_left (by simp [Gate.relabel])
  target_free := by
    intro r hr hc
    obtain ⟨q, hq, rfl⟩ := Option.map_eq_some_iff.mp hr
    obtain ⟨c, hmem, hcq⟩ := List.mem_map.mp hc
    obtain rfl : c = q :=
      hf (List.mem_append_left _ hmem) (List.mem_append_right _ (by simpa using hq)) hcq
    exact h.target_free c hq hmem
  controls_nodup := h.controls_nodup.map_on fun q hq r hr =>
    hf (List.mem_append_left _ hq) (List.mem_append_left _ hr)
  angle_eq := h.angle_eq

theorem On.relabel {qs rs : List Qubit} (h : g.On qs) (hf : Set.InjOn f {q | q ∈ qs})
    (hm : ∀ q ∈ qs, f q ∈ rs) : (g.relabel f).On rs where
  toWellFormed := h.toWellFormed.relabel (hf.mono h.qubits_mem)
  phase_untargeted := fun hk => by simp [Gate.relabel, h.phase_untargeted hk]
  qubits_mem := by
    rw [qubits_relabel]
    exact List.forall_mem_map.mpr fun q hq => hm q (h.qubits_mem q hq)

end Gate

/-! ## What a wiring finds -/

namespace Wiring

variable {w : Wiring α}

/-- What the wiring has for a target. -/
def findTarget (w : Wiring α) : Option Qubit → Except (Fault α) (Datum α)
  | none => .ok .absent
  | some q => w.find q

theorem find_eq_error {q : Qubit} {f : Fault α} (h : w.find q = .error f) :
    f = .unwired q ∧ ∀ p ∈ w, p.1.qubit? ≠ some q := by
  unfold find at h
  split at h
  · cases h
  · rename_i hnone
    cases h
    refine ⟨rfl, fun p hp hq => ?_⟩
    have hmiss := List.find?_eq_none.mp hnone p (List.mem_reverse.mpr hp)
    simp [hq] at hmiss

/-- The wiring takes the qubits `qs` one-to-one to qubits among `rs`, as `f` does. -/
structure Embeds (w : Wiring α) (f : Qubit → Qubit) (qs rs : List Qubit) : Prop where
  find_eq : ∀ q ∈ qs, w.find q = .ok (.qubit (f q))
  injOn : Set.InjOn f {q | q ∈ qs}
  maps_mem : ∀ q ∈ qs, f q ∈ rs

/-- The wiring that takes each of the qubits `qs` to its image. -/
def pairs (f : Qubit → Qubit) (qs : List Qubit) : Wiring α :=
  qs.map fun q => (.qubit q, .qubit (f q))

theorem find_pairs (f : Qubit → Qubit) {qs : List Qubit} {q : Qubit} (hq : q ∈ qs) :
    (pairs f qs : Wiring α).find q = .ok (.qubit (f q)) := by
  unfold find
  split
  · rename_i p hp
    obtain ⟨r, -, rfl⟩ := List.mem_map.mp (List.mem_reverse.mp (List.mem_of_find?_eq_some hp))
    have hr : r = q := by simpa [Datum.qubit?] using List.find?_some hp
    rw [hr]
  · rename_i hnone
    have hmiss := List.find?_eq_none.mp hnone _ (List.mem_reverse.mpr (List.mem_map_of_mem hq))
    simp [Datum.qubit?] at hmiss

theorem embeds_pairs {f : Qubit → Qubit} {qs rs : List Qubit} (hf : Set.InjOn f {q | q ∈ qs})
    (hm : ∀ q ∈ qs, f q ∈ rs) : (pairs f qs : Wiring α).Embeds f qs rs :=
  ⟨fun _ hq => find_pairs f hq, hf, hm⟩

/-- The wiring takes each of the qubits `qs` to itself. -/
def Fixes (w : Wiring α) (qs : List Qubit) : Prop := ∀ q ∈ qs, w.find q = .ok (.qubit q)

end Wiring

/-! ## Rewired gates -/

theorem mapM_eq_error {k : δ → Except (Fault α) β} {ds : List δ} {f : Fault α}
    (h : ds.mapM k = .error f) : ∃ d ∈ ds, k d = .error f := by
  induction ds with
  | nil => cases h
  | cons d ds ih =>
    rw [List.mapM_cons, bind_eq_error_iff] at h
    rcases h with hd | ⟨b, -, h⟩
    · exact ⟨d, List.mem_cons_self .., hd⟩
    · rcases bind_eq_error_iff.mp h with hds | ⟨_, -, ⟨⟩⟩
      obtain ⟨e, he, hf⟩ := ih hds
      exact ⟨e, List.mem_cons_of_mem _ he, hf⟩

namespace Gate

theorem targetOf_eq_ok_iff {k : Kind} {d : Datum α} {target : Option Qubit} :
    targetOf k d = .ok target ↔
      d = target.elim .absent .qubit ∧ (target.isSome ∨ k = .gphase) := by
  cases d with
  | absent => by_cases hk : k = .gphase <;> cases target <;> simp [targetOf, hk]
  | _ => cases target <;> simp [targetOf]

theorem controlOf_eq_ok_iff {d : Datum α} {q : Qubit} : controlOf d = .ok q ↔ d = .qubit q := by
  cases d <;> simp [controlOf, Datum.qubit?]

theorem mapM_controlOf_eq_ok_iff {ds : List (Datum α)} {qs : List Qubit} :
    ds.mapM controlOf = .ok qs ↔ ds = qs.map .qubit := by
  rw [mapM_eq_ok_iff]
  simp only [controlOf_eq_ok_iff]
  rw [← List.forall₂_eq_eq_eq, List.forall₂_map_right_iff]

variable [Scalar α]

theorem ofOperands_eq_ok_iff {k : Kind} {d : Datum α} {ds : List (Datum α)} {a : α} {h : Gate α} :
    ofOperands k d (.ok ds) (.ok a) = .ok h ↔ d = h.target.elim .absent .qubit ∧
      ds = h.controls.map .qubit ∧ make k h.target h.controls a = .ok h := by
  have hmake (target : Option Qubit) (controls : List Qubit) :
      (do
        let g ← make k target controls Scalar.zero
        if k.isParametrized then return { g with angle := ← .ok a } else return g) =
      make k target controls a := make_bind_angle k target controls a
  simp only [ofOperands, hmake, bind_eq_ok_iff, targetOf_eq_ok_iff, Except.ok.injEq,
    exists_eq_left', mapM_controlOf_eq_ok_iff]
  constructor
  · rintro ⟨target, ⟨rfl, -⟩, controls, rfl, hm⟩
    obtain ⟨-, -, -, rfl⟩ := make_eq_ok_iff.mp hm
    exact ⟨rfl, rfl, hm⟩
  · rintro ⟨rfl, rfl, hm⟩
    exact ⟨h.target, ⟨rfl, (make_eq_ok_iff.mp hm).1⟩, h.controls, rfl, hm⟩

/-- The gate `h` is the gate `g` on the qubits that the wiring has for those of `g`. -/
structure Wired (w : Wiring α) (g h : Gate α) : Prop where
  kind_eq : h.kind = g.kind
  angle_eq : h.angle = g.angle
  target_eq : w.findTarget g.target = .ok (h.target.elim .absent .qubit)
  controls_eq : List.Forall₂ (fun q r => w.find q = .ok (.qubit r)) g.controls h.controls

variable {w : Wiring α} {g h : Gate α}

omit [Scalar α] in
theorem forall₂_find_map_iff {qs rs : List Qubit} :
    List.Forall₂ (fun q d => w.find q = .ok d) qs (rs.map .qubit) ↔
      List.Forall₂ (fun q r => w.find q = .ok (.qubit r)) qs rs := List.forall₂_map_right_iff

theorem rewire_eq (w : Wiring α) (g : Gate α) : g.rewire w = (do
    let d ← w.findTarget g.target
    let ds ← g.controls.mapM w.find
    ofOperands g.kind d (.ok ds) (.ok g.angle)) := by
  unfold rewire
  cases g.target <;> rfl

theorem rewire_eq_ok_iff (hg : g.WellFormed) :
    g.rewire w = .ok h ↔ g.Wired w h ∧ h.WellFormed := by
  simp only [rewire_eq, bind_eq_ok_iff, ofOperands_eq_ok_iff, mapM_eq_ok_iff]
  constructor
  · rintro ⟨d, hd, ds, hds, rfl, rfl, hm⟩
    have hw := make_wellFormed hm
    obtain ⟨-, -, -, he⟩ := make_eq_ok_iff.mp hm
    rw [hg.angleFor_eq] at he
    refine ⟨⟨?_, ?_, hd, forall₂_find_map_iff.mp hds⟩, hw⟩
    · rw [← he]
    · rw [← he]
  · rintro ⟨hw, hh⟩
    refine ⟨_, hw.target_eq, _, forall₂_find_map_iff.mpr hw.controls_eq, rfl, rfl, ?_⟩
    rw [← hw.kind_eq, ← hw.angle_eq]
    exact make_of_wellFormed hh

/-- The gate `g` is taken along the wiring as `h` into a circuit on the qubits `qs`. -/
structure Placed (w : Wiring α) (qs : List Qubit) (g h : Gate α) : Prop extends g.Wired w h where
  wellFormed : h.WellFormed
  qubits_mem : ∀ q ∈ h.qubits, q ∈ qs

/-- The reasons for which a gate is not taken along a wiring into a circuit: a lookup fails, no gate
can be made of what is found, or the gate that is made has a qubit that is not in the circuit. -/
inductive Refused (w : Wiring α) (c : Circuit α) (g : Gate α) : Fault α → Prop
  | unwired {q : Qubit} (hq : q ∈ g.qubits) (hw : ∀ p ∈ w, p.1.qubit? ≠ some q) :
    Refused w c g (.unwired q)
  | unmade {d : Datum α} {ds : List (Datum α)} {f : Fault α} (hd : w.findTarget g.target = .ok d)
    (hds : List.Forall₂ (fun q d => w.find q = .ok d) g.controls ds)
    (hf : ofOperands g.kind d (.ok ds) (.ok g.angle) = .error f) : Refused w c g f
  | stranger {h : Gate α} {q : Qubit} (hw : g.Wired w h) (hh : h.WellFormed) (hq : q ∈ h.qubits)
    (hc : q ∉ c.qubits) : Refused w c g (.strangerInGate h q c.name)

theorem refused_of_rewire {f : Fault α} (c : Circuit α) (h : g.rewire w = .error f) :
    g.Refused w c f := by
  rw [rewire_eq, bind_eq_error_iff] at h
  rcases h with hd | ⟨d, hd, h⟩
  · cases ht : g.target with
    | none =>
      rw [ht] at hd
      cases hd
    | some q =>
      rw [ht] at hd
      obtain ⟨rfl, hw⟩ := Wiring.find_eq_error hd
      exact .unwired (by simp [qubits, ht]) hw
  · rcases bind_eq_error_iff.mp h with hds | ⟨ds, hds, hf⟩
    · obtain ⟨q, hq, hf⟩ := mapM_eq_error hds
      obtain ⟨rfl, hw⟩ := Wiring.find_eq_error hf
      exact .unwired (List.mem_append_left _ hq) hw
    · exact .unmade hd (mapM_eq_ok_iff.mp hds) hf

/-- The gates that are in the circuit by then do not matter. -/
theorem Refused.of_gates {c : Circuit α} {gs : List (Gate α)} {f : Fault α}
    (h : g.Refused w { c with gates := gs } f) : g.Refused w c f := by
  cases h with
  | unwired hq hw => exact .unwired hq hw
  | unmade hd hds hf => exact .unmade hd hds hf
  | stranger hw hh hq hc => exact .stranger hw hh hq hc

end Gate

/-! ## Circuits that are extended -/

namespace Circuit

variable [Scalar α]

/-- One gate is placed at the end, or refused. -/
theorem extendBy_placed_or_refused (w : Wiring α) {g : Gate α} (hg : g.WellFormed)
    (c : Circuit α) :
    (∃ h, g.Placed w c.qubits h ∧
        c.extendBy (some w) g = .ok { c with gates := c.gates ++ [h] }) ∨
      ∃ f, g.Refused w c f ∧ c.extendBy (some w) g = .error f := by
  cases hr : g.rewire w with
  | error f => exact Or.inr ⟨f, Gate.refused_of_rewire c hr, bind_eq_error_iff.mpr (Or.inl hr)⟩
  | ok h =>
    have hextend : c.extendBy (some w) g = c.append h := by
      simp only [extendBy, hr]
      rfl
    obtain ⟨hw, hh⟩ := (Gate.rewire_eq_ok_iff hg).mp hr
    rw [hextend]
    rcases c.append_eq_or h with ⟨hm, ha⟩ | ⟨q, hq, hc, ha⟩
    · exact Or.inl ⟨h, ⟨hw, hh, hm⟩, ha⟩
    · exact Or.inr ⟨_, .stranger hw hh hq hc, ha⟩

/-- All gates are placed, or those before the first one that is refused. -/
theorem extend_placed_or_refused (w : Wiring α) {gs : List (Gate α)} (hgs : ∀ g ∈ gs, g.WellFormed)
    (c : Circuit α) :
    (∃ hs, List.Forall₂ (Gate.Placed w c.qubits) gs hs ∧
        c.extend (some w) gs = ({ c with gates := c.gates ++ hs }, none)) ∨
      ∃ taken g rest hs f, gs = taken ++ g :: rest ∧
        List.Forall₂ (Gate.Placed w c.qubits) taken hs ∧ g.Refused w c f ∧
        c.extend (some w) gs = ({ c with gates := c.gates ++ hs }, some f) := by
  -- The circuit grows along the way, but keeps its qubits and its name, on which the rest depends.
  induction gs generalizing c with
  | nil => exact Or.inl ⟨[], .nil, by rw [List.append_nil]; rfl⟩
  | cons g gs ih =>
    obtain ⟨hg, hgs⟩ := List.forall_mem_cons.mp hgs
    rcases extendBy_placed_or_refused w hg c with ⟨h, hh, he⟩ | ⟨f, hf, he⟩
    · have hextend : c.extend (some w) (g :: gs) =
          ({ c with gates := c.gates ++ [h] } : Circuit α).extend (some w) gs := by
        simp only [extend, he]
      rw [hextend]
      rcases ih hgs { c with gates := c.gates ++ [h] } with
        ⟨hs, hhs, hrest⟩ | ⟨taken, k, rest, hs, f, rfl, hhs, hf, hrest⟩
      · exact Or.inl ⟨h :: hs, .cons hh hhs, by
          rw [hrest, List.append_assoc, List.singleton_append]⟩
      · exact Or.inr ⟨g :: taken, k, rest, h :: hs, f, rfl, .cons hh hhs, hf.of_gates, by
          rw [hrest, List.append_assoc, List.singleton_append]⟩
    · exact Or.inr ⟨[], g, gs, [], f, rfl, .nil, hf, by
        simp only [extend, he, List.append_nil]⟩

end Circuit

namespace Wiring

variable {w : Wiring α} {c : Circuit α} {f : Qubit → Qubit} {qs rs : List Qubit}

theorem Fixes.embeds (h : w.Fixes qs) : w.Embeds id qs qs :=
  ⟨h, Set.injOn_id _, fun _ hq => hq⟩

variable [Scalar α]

theorem Embeds.rewire_eq (h : w.Embeds f qs rs) {g : Gate α} (hg : g.WellFormed)
    (hqs : ∀ q ∈ g.qubits, q ∈ qs) : g.rewire w = .ok (g.relabel f) := by
  refine (Gate.rewire_eq_ok_iff hg).mpr ⟨⟨rfl, rfl, ?_, ?_⟩, hg.relabel (h.injOn.mono hqs)⟩
  · cases ht : g.target with
    | none => simp [findTarget, Gate.relabel, ht]
    | some q =>
      have hq : q ∈ qs := hqs q (by simp [Gate.qubits, ht])
      simp [findTarget, Gate.relabel, ht, h.find_eq q hq]
  · exact List.forall₂_map_right_iff.mpr (List.forall₂_same.mpr fun q hq =>
      h.find_eq q (hqs q (List.mem_append_left _ hq)))

/-- A wiring that is one-to-one places the gates with their qubits renamed. -/
theorem Embeds.extend_eq (h : w.Embeds f qs c.qubits) {gs : List (Gate α)}
    (hgs : ∀ g ∈ gs, g.WellFormed ∧ ∀ q ∈ g.qubits, q ∈ qs) :
    c.extend (some w) gs = ({ c with gates := c.gates ++ gs.map (Gate.relabel f) }, none) := by
  induction gs generalizing c with
  | nil => rw [List.map_nil, List.append_nil]; rfl
  | cons g gs ih =>
    obtain ⟨⟨hg, hqs⟩, hgs⟩ := List.forall_mem_cons.mp hgs
    have hmem : ∀ q ∈ (g.relabel f).qubits, q ∈ c.qubits := by
      rw [Gate.qubits_relabel]
      exact List.forall_mem_map.mpr fun q hq => h.maps_mem q (hqs q hq)
    have happend : c.extendBy (some w) g =
        .ok { c with gates := c.gates ++ [g.relabel f] } := by
      simp only [Circuit.extendBy, h.rewire_eq hg hqs]
      rcases c.append_eq_or (g.relabel f) with ⟨-, ha⟩ | ⟨q, hq, hc, -⟩
      · exact ha
      · exact absurd (hmem q hq) hc
    have hrest := ih (c := { c with gates := c.gates ++ [g.relabel f] }) h hgs
    simp only [Circuit.extend, happend, hrest, List.map_cons, List.append_assoc,
      List.singleton_append]

/-- A wiring of every qubit to itself does what is done without a wiring, also where that fails. -/
theorem Fixes.extend_eq (h : w.Fixes qs) {gs : List (Gate α)}
    (hgs : ∀ g ∈ gs, g.WellFormed ∧ ∀ q ∈ g.qubits, q ∈ qs) :
    c.extend (some w) gs = c.extend none gs := by
  induction gs generalizing c with
  | nil => rfl
  | cons g gs ih =>
    obtain ⟨⟨hg, hqs⟩, hgs⟩ := List.forall_mem_cons.mp hgs
    have hself : g.relabel id = g := by simp [Gate.relabel]
    have hby : c.extendBy (some w) g = c.extendBy none g := by
      simp only [Circuit.extendBy, h.embeds.rewire_eq hg hqs, hself]
      rfl
    simp only [Circuit.extend, hby, ih hgs]

end Wiring

/-! ## Sessions -/

namespace Action

variable [Scalar α] {s : Session α} {n m : ℕ} {c d : Circuit α} {w : Option (Wiring α)}

/-- Plugging in another circuit settles what becomes of the gates. -/
theorem run_extend (hnm : m ≠ n) (hn : s.receivers[n]? = some (.circuit c))
    (hm : s.receivers[m]? = some (.circuit d)) : (extend n (some m) w).run.run s =
      (settle n (.circuit (c.extend w d.gates).1, (c.extend w d.gates).2)).run.run s := by
  refine ((returns_receiver hn).run_bind _).trans (((returns_circuit hm).run_bind _).trans ?_)
  rw [if_neg hnm]

theorem returns_extend (hnm : m ≠ n) (hn : s.receivers[n]? = some (.circuit c))
    (hm : s.receivers[m]? = some (.circuit d)) {hs : List (Gate α)}
    (he : c.extend w d.gates = ({ c with gates := c.gates ++ hs }, none)) :
    Returns (extend n (some m) w) s ()
      { s with receivers := s.receivers.set n ((Sink.circuit c).extended hs) } := by
  refine (run_extend hnm hn hm).trans ?_
  rw [he]
  exact (returns_putReceiver n _ s).bind (returns_pure () _)

theorem fails_extend (hnm : m ≠ n) (hn : s.receivers[n]? = some (.circuit c))
    (hm : s.receivers[m]? = some (.circuit d)) {hs : List (Gate α)} {f : Fault α}
    (he : c.extend w d.gates = ({ c with gates := c.gates ++ hs }, some f)) :
    Fails (extend n (some m) w) s f
      { s with receivers := s.receivers.set n ((Sink.circuit c).extended hs) } := by
  refine (run_extend hnm hn hm).trans ?_
  rw [he]
  exact (returns_putReceiver n _ s).bind_fails (fails_throw f _)

end Action

end StateSynthesis
