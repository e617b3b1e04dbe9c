import StateSynthesis.Proofs.Controlling
import StateSynthesis.Proofs.Thinning

/-!
The options of a call, gate by gate. A sequence is inverted and controlled independently
(`controlBy_inverse`), and controls come in front of controls (`controlBy_controlBy`). A call with
the adjoint emits the inverse of what it emits without (`Adjoint.emitted_agree`), a call under
controls emits what it emits without them, under the controls (`UnderControls.emitted_iff`), and a
register is disentangled by the inverse of its preparation (`unpreparation_emitted_iff`). What is
emitted is what a receiver gains, or what the circuit has that a preparation makes for itself
(`performs_iff`, `makes_iff`). Main statement: `synthesis_options`.
-/
namespace StateSynthesis

open Sequence

variable {α : Type} [Scalar α]

/-! ## Sequences -/

namespace Gate

theorem controllable_inverse_iff {cs : List Qubit} {g : Gate α} :
    g.inverse.Controllable cs ↔ g.Controllable cs :=
  ⟨fun h => ⟨h.target_free, h.controls_nodup⟩, fun h => ⟨h.target_free, h.controls_nodup⟩⟩

omit [Scalar α] in
/-- Further controls have to differ from the ones before as well. -/
theorem controllable_append_iff {cs ds : List Qubit} {g : Gate α} :
    g.Controllable (ds ++ cs) ↔ g.Controllable cs ∧ (g.withControls cs).Controllable ds := by
  constructor
  · intro h
    have hn : (ds ++ (cs ++ g.controls)).Nodup := List.append_assoc .. ▸ h.controls_nodup
    exact ⟨⟨fun q hq hc => h.target_free q hq (List.mem_append_right _ hc),
      (List.nodup_append.mp hn).2.1⟩,
      ⟨fun q hq hd => h.target_free q hq (List.mem_append_left _ hd), hn⟩⟩
  · rintro ⟨hc, hd⟩
    refine ⟨fun q hq hm => ?_, (List.append_assoc ..).symm ▸ hd.controls_nodup⟩
    exact (List.mem_append.mp hm).elim (hd.target_free q hq) (hc.target_free q hq)

end Gate

namespace Sequence

variable {gs ks : List (Gate α)}

theorem wellFormed_inverse (hg : ∀ g ∈ gs, g.WellFormed) : ∀ g ∈ inverse gs, g.WellFormed := by
  intro g hm
  obtain ⟨f, hf, rfl⟩ := List.mem_map.mp hm
  exact (hg f (List.mem_reverse.mp hf)).inverse

theorem inverse_inverse (hα : ∀ x : α, - -x = x) (hg : ∀ g ∈ gs, g.WellFormed) :
    inverse (inverse gs) = gs := by
  have heach : gs.map (Gate.inverse ∘ Gate.inverse) = gs.map id :=
    List.map_congr_left fun g hm => (hg g hm).inverse_inverse hα
  rw [inverse, inverse, ← List.map_reverse, List.reverse_reverse, List.map_map, heach, List.map_id]

theorem controlBy_inverse (hg : ∀ g ∈ gs, g.WellFormed) {cs : List Qubit} :
    controlBy (cs.map Datum.qubit) (inverse gs) = .ok ks ↔
      ∃ hs, controlBy (cs.map Datum.qubit) gs = .ok hs ∧ ks = inverse hs := by
  have hcontrollable : (∀ g ∈ inverse gs, g.Controllable cs) ↔ ∀ g ∈ gs, g.Controllable cs := by
    simp [inverse, Gate.controllable_inverse_iff]
  rw [controlBy_eq_ok_iff (wellFormed_inverse hg), hcontrollable, ← inverse_controlled]
  constructor
  · rintro ⟨hc, rfl⟩
    exact ⟨_, (controlBy_eq_ok_iff hg).mpr ⟨hc, rfl⟩, rfl⟩
  · rintro ⟨hs, hhs, rfl⟩
    obtain ⟨hc, rfl⟩ := (controlBy_eq_ok_iff hg).mp hhs
    exact ⟨hc, rfl⟩

theorem controlBy_controlBy (hg : ∀ g ∈ gs, g.WellFormed) {cs ds : List Qubit} :
    controlBy (cs.map Datum.qubit) gs >>= controlBy (ds.map Datum.qubit) = .ok ks ↔
      controlBy ((ds ++ cs).map Datum.qubit) gs = .ok ks := by
  have hcontrolled (hc : ∀ g ∈ gs, g.Controllable cs) : ∀ h ∈ controlled cs gs, h.WellFormed := by
    intro h hm
    obtain ⟨g, hgm, rfl⟩ := List.mem_map.mp hm
    exact (hg g hgm).withControls (hc g hgm)
  have hgather : controlled ds (controlled cs gs) = controlled (ds ++ cs) gs := by
    simp [controlled]
  rw [bind_eq_ok_iff, controlBy_eq_ok_iff hg]
  constructor
  · rintro ⟨hs, hhs, hks⟩
    obtain ⟨hc, rfl⟩ := (controlBy_eq_ok_iff hg).mp hhs
    obtain ⟨hd, rfl⟩ := (controlBy_eq_ok_iff (hcontrolled hc)).mp hks
    exact ⟨fun g hm => Gate.controllable_append_iff.mpr
      ⟨hc g hm, hd _ (List.mem_map_of_mem hm)⟩, hgather.symm⟩
  · rintro ⟨hall, rfl⟩
    have hc : ∀ g ∈ gs, g.Controllable cs := fun g hm =>
      (Gate.controllable_append_iff.mp (hall g hm)).1
    refine ⟨_, (controlBy_eq_ok_iff hg).mpr ⟨hc, rfl⟩,
      (controlBy_eq_ok_iff (hcontrolled hc)).mpr ⟨fun h hm => ?_, hgather⟩⟩
    obtain ⟨g, hgm, rfl⟩ := List.mem_map.mp hm
    exact (Gate.controllable_append_iff.mp (hall g hgm)).2

end Sequence

/-! ## The adjoint -/

/-- A call with the adjoint, and the same call without. -/
inductive SynthesisCall.Adjoint : SynthesisCall α → SynthesisCall α → Prop
  | rotation (τ : α) (angles : List α) (axis : Axis) (controls : List (Datum α)) (target : Datum α)
    (outer : List (Datum α)) : Adjoint (.rotation τ angles axis controls target outer true)
      (.rotation τ angles axis controls target outer false)
  | diagonal (τ : α) (angles : List α) (register controls : List (Datum α)) :
    Adjoint (.diagonal τ angles register controls true) (.diagonal τ angles register controls false)
  | preparation (τ : α) (coefficients register controls : List (Datum α)) :
    Adjoint (.preparation τ coefficients register controls true)
      (.preparation τ coefficients register controls false)

/-- The first sequence is the inverse of the second one. -/
def Sequence.Inverts (ks hs : List (Gate α)) : Prop := ks = inverse hs

section Adjoint

variable (hα : ∀ x : α, - -x = x)

include hα

theorem Preparation.inverse_inverse_disentangle (τ : α) {rs : List Qubit} (hn : rs.Nodup)
    (as : List (Amplitude α)) : inverse (inverse (disentangle τ rs as)) = disentangle τ rs as :=
  inverse_inverse hα fun g hg => (disentangle_on τ hn as g hg).toWellFormed

theorem Preparation.gates?_adjoint (p : Preparation α) (frame : Option (Circuit α)) :
    Agree (Option.Rel Inverts) ({ p with adjoint := true }.gates? frame)
      ({ p with adjoint := false }.gates? frame) := by
  refine Agree.bind_same _ fun register => ?_
  refine Agree.bind_same _ fun controls => Agree.guard _ ?_
  refine Agree.bind_ok _ fun _ hd => Agree.bind_same _ fun as => ?_
  split
  · exact .returned .none
  · refine .returned (.some ?_)
    have hn : register.Nodup := (List.nodup_append.mp (Operands.nodup_of_distinct hd)).1
    show controlled controls (disentangle p.tolerance register as) =
      inverse (controlled controls (inverse (disentangle p.tolerance register as)))
    rw [inverse_controlled, inverse_inverse_disentangle hα p.tolerance hn]

theorem SynthesisCall.Adjoint.emitted_agree {c' c : SynthesisCall α} (h : Adjoint c' c)
    (frame : Option (Circuit α)) : Agree Inverts (c'.emitted frame) (c.emitted frame) := by
  cases h with
  | rotation =>
    refine Agree.bind_same _ fun _ => Agree.bind_same _ fun axis => ?_
    refine Agree.bind_same _ fun controls => Agree.bind_same _ fun outer => ?_
    refine Agree.bind_same _ fun target => Agree.guard _ ?_
    refine Agree.bind_same _ fun _ => Agree.bind_same _ fun angles => ?_
    exact .returned rfl
  | diagonal =>
    refine Agree.bind_same _ fun _ => Agree.bind_same _ fun register => ?_
    refine Agree.bind_same _ fun controls => Agree.guard _ ?_
    refine Agree.bind_same _ fun _ => Agree.bind_same _ fun angles => ?_
    exact .returned (inverse_controlled _ _).symm
  | preparation τ coefficients register controls =>
    refine Agree.bind_same _ fun _ => ?_
    refine (Preparation.gates?_adjoint hα ⟨τ, _, _, _, false⟩ frame).bind fun ks? hs? h => ?_
    cases h with
    | none => exact .returned rfl
    | some h => exact .returned h

end Adjoint

/-! ## Further controls -/

/-- A call on a register under controls, and the same call without controls. -/
inductive SynthesisCall.UnderControls (register controls : List (Datum α)) :
    SynthesisCall α → SynthesisCall α → Prop
  | diagonal (τ : α) (angles : List α) (adjoint : Bool) : UnderControls register controls
      (.diagonal τ angles register controls adjoint) (.diagonal τ angles register [] adjoint)
  | preparation (τ : α) (coefficients : List (Datum α)) (adjoint : Bool) :
    UnderControls register controls (.preparation τ coefficients register controls adjoint)
      (.preparation τ coefficients register [] adjoint)

namespace Operands

/-- The operands `controls` stand for the different qubits `cs`, and the register has none of
them. -/
structure Spare (frame : Option (Circuit α)) (register controls : List (Datum α))
    (cs : List Qubit) : Prop where
  names : List.Forall₂ (Names frame) controls cs
  nodup : cs.Nodup
  apart : ∀ d ∈ register, ∀ c ∈ cs, ¬ Names frame d c

variable {frame : Option (Circuit α)} {register controls : List (Datum α)} {rs cs : List Qubit}

omit [Scalar α] in
theorem nodup_append_iff (hr : List.Forall₂ (Names frame) register rs)
    (hc : List.Forall₂ (Names frame) controls cs) :
    (rs ++ cs).Nodup ↔ rs.Nodup ∧ Spare frame register controls cs := by
  constructor
  · intro h
    obtain ⟨hrs, hcs, hne⟩ := List.nodup_append.mp h
    refine ⟨hrs, hc, hcs, fun d hd c hm hn => ?_⟩
    obtain ⟨r, hrm, hdr⟩ := exists_of_mem_forall₂ hr d hd
    exact hne r hrm c hm (hdr.unique hn)
  · rintro ⟨hrs, hs⟩
    refine List.nodup_append.mpr ⟨hrs, hs.nodup, ?_⟩
    rintro r hrm _ hm rfl
    obtain ⟨d, hd, hdr⟩ := exists_of_mem_forall₂ hr.flip r hrm
    exact hs.apart d hd r hm hdr

theorem Spare.controlBy_eq (h : Spare frame register controls cs)
    (hr : List.Forall₂ (Names frame) register rs) {gs : List (Gate α)} (hg : On rs gs) :
    controlBy (cs.map Datum.qubit) gs = .ok (controlled cs gs) := by
  refine controlBy_of_disjoint (fun g hm => (hg g hm).toWellFormed) h.nodup fun g hm c hc hq => ?_
  obtain ⟨d, hd, hn⟩ := exists_of_mem_forall₂ hr.flip c ((hg g hm).qubits_mem c hq)
  exact h.apart d hd c hc hn

end Operands

/-- The gates of a register and of controls: `Body` says which are on the register, and all of them
come under the controls. -/
def Operands.Composes (frame : Option (Circuit α)) (register controls : List (Datum α))
    (Body : List Qubit → List (Gate α) → Prop) (gs : List (Gate α)) : Prop :=
  ∃ rs cs body, List.Forall₂ (Names frame) register rs ∧ List.Forall₂ (Names frame) controls cs ∧
    (rs ++ cs).Nodup ∧ Body rs body ∧ controlled cs body = gs

theorem Operands.composes_iff {frame : Option (Circuit α)} {register controls : List (Datum α)}
    {Body : List Qubit → List (Gate α) → Prop}
    (hbody : ∀ rs body, rs.Nodup → Body rs body → On rs body) {gs : List (Gate α)} :
    Composes frame register controls Body gs ↔ ∃ cs hs, Spare frame register controls cs ∧
      Composes frame register [] Body hs ∧ controlBy (cs.map Datum.qubit) hs = .ok gs := by
  constructor
  · rintro ⟨rs, cs, body, hr, hc, hn, hb, rfl⟩
    obtain ⟨hrs, hspare⟩ := (nodup_append_iff hr hc).mp hn
    refine ⟨cs, body, hspare, ⟨rs, [], body, hr, .nil, ?_, hb, controlled_nil body⟩, ?_⟩
    · rwa [List.append_nil]
    · exact hspare.controlBy_eq hr (hbody rs body hrs hb)
  · rintro ⟨cs, hs, hspare, ⟨rs, _, body, hr, hnil, hn, hb, rfl⟩, hgs⟩
    obtain rfl := List.forall₂_nil_left_iff.mp hnil
    have hrs : rs.Nodup := List.append_nil rs ▸ hn
    rw [controlled_nil, hspare.controlBy_eq hr (hbody rs body hrs hb)] at hgs
    exact ⟨rs, cs, body, hr, hspare.names, (nodup_append_iff hr hspare.names).mpr ⟨hrs, hspare⟩, hb,
      Except.ok.inj hgs⟩

open Operands

namespace SynthesisCall

/-- What a call that takes controls puts under them, for the qubits of its register. -/
def Body : SynthesisCall α → List Qubit → List (Gate α) → Prop
  | diagonal τ angles _ _ adjoint, rs, body =>
    Tolerance.check τ = .ok () ∧ rs ≠ [] ∧ angles.length ≤ dimension rs.length ∧
      oriented adjoint (Diagonal.phases τ rs.reverse (Angles.padTo (dimension rs.length) angles)) =
        body
  | preparation τ coefficients _ _ adjoint, rs, body =>
    Tolerance.check τ = .ok () ∧ rs ≠ [] ∧
      ∃ as, Entry.pad (dimension rs.length) (coefficients.map Entry.ofDatum) = .ok as ∧
        (if Preparation.isZero as then []
          else oriented (!adjoint) (Preparation.disentangle τ rs as)) = body
  | _, _, _ => False

theorem Body.on {c : SynthesisCall α} {rs : List Qubit} {body : List (Gate α)} (hn : rs.Nodup)
    (h : c.Body rs body) : On rs body := by
  cases c with
  | diagonal τ angles register controls adjoint =>
    obtain ⟨-, -, -, rfl⟩ := h
    exact ((Diagonal.phases_on τ (List.nodup_reverse.mpr hn) _).oriented adjoint).mono fun q hq =>
      List.mem_reverse.mp hq
  | preparation τ coefficients register controls adjoint =>
    obtain ⟨-, -, as, -, rfl⟩ := h
    split
    · exact on_nil rs
    · exact (Preparation.disentangle_on τ hn as).oriented (!adjoint)
  | _ => exact h.elim

variable {register controls : List (Datum α)} {c' c : SynthesisCall α} {frame : Option (Circuit α)}
  {gs : List (Gate α)}

theorem emitted_diagonal_iff {τ : α} {angles : List α} {adjoint : Bool} :
    (diagonal τ angles register controls adjoint).emitted frame = .ok gs ↔
      Composes frame register controls (diagonal τ angles register controls adjoint).Body gs := by
  constructor
  · intro h
    obtain ⟨rs, cs, ha⟩ := DiagonalUnitary.admits_of_gates h
    exact ⟨rs, cs, _, resolveAll_list_eq_ok_iff.mp ha.register_ok,
      resolveAll_list_eq_ok_iff.mp ha.controls_ok, ha.distinct,
      ⟨ha.tolerance_ok, ha.nonempty, ha.angles_fit, rfl⟩, Except.ok.inj (ha.gates_eq.symm.trans h)⟩
  · rintro ⟨rs, cs, _, hr, hc, hn, ⟨hτ, hne, hfit, rfl⟩, rfl⟩
    have ha : DiagonalUnitary.Admits ⟨τ, angles, .list register, .list controls, adjoint⟩ frame
        rs cs :=
      ⟨hτ, resolveAll_list_eq_ok_iff.mpr hr, resolveAll_list_eq_ok_iff.mpr hc, hne, hn, hfit⟩
    exact ha.gates_eq

theorem emitted_preparation_iff {τ : α} {coefficients : List (Datum α)} {adjoint : Bool} :
    (preparation τ coefficients register controls adjoint).emitted frame = .ok gs ↔
      Composes frame register controls
        (preparation τ coefficients register controls adjoint).Body gs := by
  have hgetD (b : Bool) (cs : List Qubit) (body : List (Gate α)) :
      (if b then none else some (controlled cs body)).getD [] =
        controlled cs (if b then [] else body) := by
    cases b <;> rfl
  constructor
  · intro h
    obtain ⟨_, hτ, h⟩ := bind_eq_ok_iff.mp h
    obtain ⟨gs?, hg, h⟩ := bind_eq_ok_iff.mp h
    obtain ⟨rs, cs, as, hp, has⟩ := Preparation.resolves_of_gates? hg
    obtain rfl := Except.ok.inj ((hp.gates?_eq has).symm.trans hg)
    exact ⟨rs, cs, _, resolveAll_list_eq_ok_iff.mp hp.register_ok,
      resolveAll_list_eq_ok_iff.mp hp.controls_ok, hp.distinct, ⟨hτ, hp.nonempty, as, has, rfl⟩,
      (hgetD ..).symm.trans (Except.ok.inj h)⟩
  · rintro ⟨rs, cs, _, hr, hc, hn, ⟨hτ, hne, as, has, rfl⟩, rfl⟩
    have hp : Preparation.Resolves ⟨τ, coefficients.map Entry.ofDatum, .list register,
        .list controls, adjoint⟩ frame rs cs :=
      ⟨resolveAll_list_eq_ok_iff.mpr hr, resolveAll_list_eq_ok_iff.mpr hc, hne, hn⟩
    exact bind_eq_ok_iff.mpr ⟨_, hτ, bind_eq_ok_iff.mpr
      ⟨_, hp.gates?_eq has, congrArg Except.ok (hgetD ..)⟩⟩

theorem UnderControls.emitted_iff (h : UnderControls register controls c' c) :
    c'.emitted frame = .ok gs ↔ ∃ cs hs, Spare frame register controls cs ∧
      c.emitted frame = .ok hs ∧ controlBy (cs.map Datum.qubit) hs = .ok gs := by
  cases h with
  | diagonal =>
    simp only [emitted_diagonal_iff]
    exact composes_iff fun rs body => Body.on
  | preparation =>
    simp only [emitted_preparation_iff]
    exact composes_iff fun rs body => Body.on

end SynthesisCall

/-! ## The disentangled register -/

/-- Some coefficient has a magnitude that is not zero. -/
def Entry.Nonzero (coefficients : List (Datum α)) : Prop :=
  ∃ d ∈ coefficients, ∃ a, ofDatum d = .ok a ∧ (a.magnitude == Scalar.zero) = false

theorem Entry.Nonzero.isZero_eq {coefficients : List (Datum α)} (h : Nonzero coefficients) {n : Nat}
    {as : List (Amplitude α)} (has : pad n (coefficients.map ofDatum) = .ok as) :
    Preparation.isZero as = false := by
  obtain ⟨d, hd, a, ha, hne⟩ := h
  obtain ⟨bs, hbs, -, rfl⟩ := pad_eq_ok_iff.mp has
  obtain ⟨b, hb, hdb⟩ := exists_of_mem_forall₂ (resolve_eq_ok_iff.mp hbs) d hd
  obtain rfl := Except.ok.inj (ha.symm.trans hdb)
  exact Preparation.isZero_padTo (List.all_eq_false.mpr ⟨a, hb, by simpa using hne⟩)

open SynthesisCall in
theorem unpreparation_emitted_iff (hα : ∀ x : α, - -x = x) {τ : α}
    {coefficients controls : List (Datum α)} {target : Datum α} (hne : Entry.Nonzero coefficients)
    {frame : Option (Circuit α)} {gs : List (Gate α)} :
    (unpreparation τ coefficients controls target).emitted frame = .ok gs ↔
      ∃ hs, (preparation τ coefficients (target :: controls) [] false).emitted frame = .ok hs ∧
        Inverts gs hs := by
  constructor
  · intro h
    obtain ⟨cs, t, as, ha⟩ := Unpreparation.admits_of_gates h
    obtain rfl := Except.ok.inj (ha.gates_eq.symm.trans h)
    have hn : (t :: cs).Nodup := (List.perm_append_singleton t cs).nodup_iff.mp ha.distinct
    have hr : List.Forall₂ (Names frame) (target :: controls) (t :: cs) :=
      .cons (resolve_eq_ok_iff.mp ha.target_ok) (resolveAll_list_eq_ok_iff.mp ha.controls_ok)
    refine ⟨inverse (Preparation.disentangle τ (t :: cs) as), ?_,
      (Preparation.inverse_inverse_disentangle hα τ hn as).symm⟩
    refine emitted_preparation_iff.mpr ⟨t :: cs, [], _, hr, .nil, by rwa [List.append_nil],
      ⟨ha.tolerance_ok, by simp, as, ha.coefficients_ok, rfl⟩, ?_⟩
    simp only [hne.isZero_eq ha.coefficients_ok]
    exact controlled_nil _
  · rintro ⟨hs, hhs, hgs⟩
    obtain ⟨rs, _, _, hr, hnil, hn, ⟨hτ, -, as, has, rfl⟩, rfl⟩ := emitted_preparation_iff.mp hhs
    obtain rfl := List.forall₂_nil_left_iff.mp hnil
    obtain ⟨t, cs, ht, hcs, rfl⟩ := List.forall₂_cons_left_iff.mp hr
    have hts : (t :: cs).Nodup := List.append_nil (t :: cs) ▸ hn
    have ha : Unpreparation.Admits ⟨τ, coefficients.map Entry.ofDatum, .list controls, target⟩ frame
        cs t as := {
      tolerance_ok := hτ
      controls_ok := resolveAll_list_eq_ok_iff.mpr hcs
      target_ok := resolve_eq_ok_iff.mpr ht
      distinct := (List.perm_append_singleton t cs).nodup_iff.mpr hts
      coefficients_ok := has }
    refine ha.gates_eq.trans (congrArg Except.ok ?_)
    rw [hgs, hne.isZero_eq has, controlled_nil]
    exact (Preparation.inverse_inverse_disentangle hα τ hts as).symm

/-! ## Sessions -/

/-- What a receiver gains is what the call emits for it. -/
theorem SynthesisCall.performs_iff {s : Session α} {n : Nat} {r : Sink α}
    (hr : s.receivers[n]? = some r) (c : SynthesisCall α) (gs : List (Gate α)) :
    Action.Returns (c.perform n) s () { s with receivers := s.receivers.set n (r.extended gs) } ↔
      c.emitted r.circuit? = .ok gs := by
  constructor
  · intro h
    cases he : c.emitted r.circuit? with
    | error f => exact absurd (fails_perform hr he) h.not_fails
    | ok hs =>
      have heq := (h.unique (returns_perform hr he (takes_of_emitted he))).2
      have hn : n < s.receivers.length := (List.getElem?_eq_some_iff.mp hr).1
      have hsink : r.extended gs = r.extended hs := by
        simpa [hn] using congrArg (fun t => t.receivers[n]?) heq
      have hgates : r.gates ++ gs = r.gates ++ hs := by
        simpa using congrArg Sink.gates hsink
      rw [List.append_cancel_left hgates]
  · exact fun h => returns_perform hr h (takes_of_emitted h)

namespace Circuit

variable {c d : Circuit α} {qs : List Qubit}

omit [Scalar α] in
theorem addQubit_eq_ok {q : Qubit} (h : c.addQubit q = .ok d) :
    { c with qubits := c.qubits ++ [q] } = d := by
  unfold addQubit at h
  split at h
  · cases h
  · exact Except.ok.inj h

omit [Scalar α] in
/-- Qubits that the circuit has not got join it. -/
theorem joined_eq_ok (h : qs.foldlM (fun c q => if c.qubits.contains q then pure c
      else c.addQubit q) c = (.ok d : Except (Fault α) (Circuit α))) :
    (∀ q, q ∈ d.qubits ↔ q ∈ c.qubits ∨ q ∈ qs) ∧ d.gates = c.gates := by
  induction qs generalizing c with
  | nil =>
    obtain rfl := Except.ok.inj h
    simp
  | cons q qs ih =>
    rw [List.foldlM_cons] at h
    obtain ⟨e, he, hrest⟩ := bind_eq_ok_iff.mp h
    obtain ⟨hmem, hgates⟩ := ih hrest
    split at he
    · rename_i hq
      obtain rfl := Except.ok.inj he
      have hq : q ∈ c.qubits := by simpa using hq
      refine ⟨fun p => (hmem p).trans ?_, hgates⟩
      rw [List.mem_cons]
      constructor
      · exact Or.imp_right Or.inr
      · rintro (hp | rfl | hp)
        · exact Or.inl hp
        · exact Or.inl hq
        · exact Or.inr hp
    · obtain rfl := addQubit_eq_ok he
      refine ⟨fun p => (hmem p).trans ?_, hgates⟩
      simp only [List.mem_append, List.mem_cons, List.not_mem_nil, or_false, or_assoc]

end Circuit

omit [Scalar α] in
theorem Preparation.freshCircuit_eq_ok {p : Preparation α} {register controls : List (Datum α)}
    (hr : p.register = .list register) (hc : p.controls = .list controls) {name : String}
    {c : Circuit α} (h : p.freshCircuit name = .ok c) :
    (∀ q, q ∈ c.qubits ↔ .qubit q ∈ register ++ controls) ∧ c.gates = [] := by
  simp only [freshCircuit, hr, hc] at h
  obtain ⟨hmem, hgates⟩ := Circuit.joined_eq_ok h
  refine ⟨fun q => (hmem q).trans ?_, hgates⟩
  have hqubit (d : Datum α) : d.qubit? = some q ↔ d = .qubit q := by
    cases d <;> simp [Datum.qubit?]
  simp only [Circuit.empty, List.not_mem_nil, false_or, List.mem_filterMap, hqubit, exists_eq_right]

namespace Operands

variable {c : Circuit α} {ds : List (Datum α)} {qs : List Qubit}

omit [Scalar α] in
/-- In a circuit of nothing but operands an index stands for another operand, so operands that stand
for different qubits are qubits. -/
theorem names_none_iff (hc : ∀ q, q ∈ c.qubits ↔ .qubit q ∈ ds) (hn : qs.Nodup) :
    List.Forall₂ (Names (some c)) ds qs ↔ List.Forall₂ (Names none) ds qs := by
  simp only [List.forall₂_iff_get]
  refine and_congr_right fun hlen => ⟨fun h i hi hi' => ?_, fun h i hi hi' => ?_⟩
  · have hmem : .qubit (qs.get ⟨i, hi'⟩) ∈ ds := (hc _).mp ((h i hi hi').mem c rfl)
    obtain ⟨j, hj⟩ := List.get_of_mem hmem
    have hself : Names (some c) (.qubit (qs.get ⟨i, hi'⟩)) (qs.get ⟨i, hi'⟩) :=
      .member ((h i hi hi').mem c rfl)
    have heq : qs.get ⟨j, hlen ▸ j.2⟩ = qs.get ⟨i, hi'⟩ :=
      (h j j.2 (hlen ▸ j.2)).unique (hj ▸ hself)
    have hval : (j : Nat) = i := Fin.val_eq_of_eq (List.nodup_iff_injective_get.mp hn heq)
    have hij : j = ⟨i, hi⟩ := Fin.ext hval
    rw [← hij, hj]
    exact .free _
  · have hd : ds.get ⟨i, hi⟩ = .qubit (qs.get ⟨i, hi'⟩) :=
      asQubit_eq_ok_iff.mp (resolve_eq_ok_iff.mpr (h i hi hi'))
    rw [hd]
    exact .member ((hc _).mpr (hd ▸ List.get_mem ds ⟨i, hi⟩))

omit [Scalar α] in
theorem composes_none_iff {register controls : List (Datum α)}
    (hc : ∀ q, q ∈ c.qubits ↔ .qubit q ∈ register ++ controls)
    {Body : List Qubit → List (Gate α) → Prop} {gs : List (Gate α)} :
    Composes (some c) register controls Body gs ↔ Composes none register controls Body gs := by
  have hsplit {R S : Datum α → Qubit → Prop} {rs cs : List Qubit}
      (hr : List.Forall₂ R register rs) (h : List.Forall₂ S (register ++ controls) (rs ++ cs)) :
      List.Forall₂ S register rs ∧ List.Forall₂ S controls cs := by
    have hrs := List.forall₂_take_append _ rs cs h
    have hcs := List.forall₂_drop_append _ rs cs h
    rw [← hr.length_eq] at hrs hcs
    rw [List.take_left] at hrs
    rw [List.drop_left] at hcs
    exact ⟨hrs, hcs⟩
  constructor
  · rintro ⟨rs, cs, body, hr, hcs, hn, hb, hgs⟩
    obtain ⟨hr', hcs'⟩ := hsplit hr ((names_none_iff hc hn).mp (List.rel_append hr hcs))
    exact ⟨rs, cs, body, hr', hcs', hn, hb, hgs⟩
  · rintro ⟨rs, cs, body, hr, hcs, hn, hb, hgs⟩
    obtain ⟨hr', hcs'⟩ := hsplit hr ((names_none_iff hc hn).mpr (List.rel_append hr hcs))
    exact ⟨rs, cs, body, hr', hcs', hn, hb, hgs⟩

end Operands

namespace Action

/-- A preparation that is given no receiver makes a circuit with the gates `gs`. -/
def Makes (p : Preparation α) (s : Session α) (gs : List (Gate α)) : Prop :=
  ∃ b t c, Returns (prepare p none) s b t ∧
    t.receivers[s.receivers.length]? = some (.circuit c) ∧ c.gates = gs

variable {p : Preparation α} {s : Session α} {c : Circuit α}

theorem makes_of_gates? (hτ : Tolerance.check p.tolerance = .ok ())
    (hc : p.freshCircuit ("circuit_" ++ toString s.receivers.length) = .ok c)
    {gs? : Option (List (Gate α))} (hg : p.gates? (some c) = .ok gs?) :
    Makes p s (c.gates ++ gs?.getD []) := by
  have hinto := returns_prepareInto (s := { s with receivers := s.receivers ++ [.circuit c] })
    List.getElem?_concat_length hg
  refine ⟨_, _, { c with gates := c.gates ++ gs?.getD [] }, (returns_ok hτ s).bind
    ((returns_defaultName s).bind ((returns_ok hc s).bind ((returns_createReceiver _ s).bind
      (hinto.bind (returns_pure _ _))))), ?_, rfl⟩
  simp [Sink.extended]

theorem makes_unique {gs hs : List (Gate α)} (hg : Makes p s gs) (hh : Makes p s hs) : gs = hs := by
  obtain ⟨b, t, c, hr, ht, rfl⟩ := hg
  obtain ⟨b', t', c', hr', ht', rfl⟩ := hh
  obtain rfl := (hr.unique hr').2
  obtain rfl : c = c' := by simpa using ht.symm.trans ht'
  rfl

theorem exists_of_makes {gs : List (Gate α)} (h : Makes p s gs) :
    Tolerance.check p.tolerance = .ok () ∧
      ∃ c gs?, p.freshCircuit ("circuit_" ++ toString s.receivers.length) = .ok c ∧
        p.gates? (some c) = .ok gs? ∧ gs = c.gates ++ gs?.getD [] := by
  obtain ⟨_, _, _, hr, -, -⟩ := id h
  obtain ⟨_, _, hchecked, hr⟩ := hr.exists_of_bind
  obtain ⟨hτ, rfl⟩ := hchecked.eq_ok
  obtain ⟨_, _, hnamed, hr⟩ := hr.exists_of_bind
  obtain ⟨rfl, rfl⟩ := (returns_defaultName s).unique hnamed
  obtain ⟨c, _, hfreshed, hr⟩ := hr.exists_of_bind
  obtain ⟨hc, rfl⟩ := hfreshed.eq_ok
  obtain ⟨_, _, hcreated, hr⟩ := hr.exists_of_bind
  obtain ⟨rfl, rfl⟩ := (returns_createReceiver (.circuit c) s).unique hcreated
  obtain ⟨_, _, hprepared, -⟩ := hr.exists_of_bind
  obtain ⟨_, _, hframed, hr⟩ := hprepared.exists_of_bind
  obtain ⟨rfl, rfl⟩ := (returns_frame List.getElem?_concat_length).unique hframed
  obtain ⟨gs?, _, hemitted, -⟩ := hr.exists_of_bind
  obtain ⟨hg, -⟩ := hemitted.eq_ok
  exact ⟨hτ, c, gs?, hc, hg, makes_unique h (makes_of_gates? hτ hc hg)⟩

theorem makes_iff {τ : α} {coefficients register controls : List (Datum α)} {adjoint : Bool}
    {gs : List (Gate α)} :
    Makes ⟨τ, coefficients.map Entry.ofDatum, .list register, .list controls, adjoint⟩ s gs ↔
      (∃ c, Preparation.freshCircuit
        ⟨τ, coefficients.map Entry.ofDatum, .list register, .list controls, adjoint⟩
        ("circuit_" ++ toString s.receivers.length) = .ok c) ∧
      (SynthesisCall.preparation τ coefficients register controls adjoint).emitted none =
        .ok gs := by
  have hfresh {c : Circuit α} (hc : Preparation.freshCircuit
      ⟨τ, coefficients.map Entry.ofDatum, .list register, .list controls, adjoint⟩
      ("circuit_" ++ toString s.receivers.length) = .ok c) {hs : List (Gate α)} :
      (SynthesisCall.preparation τ coefficients register controls adjoint).emitted (some c) =
        .ok hs ↔
      (SynthesisCall.preparation τ coefficients register controls adjoint).emitted none =
        .ok hs := by
    rw [SynthesisCall.emitted_preparation_iff, SynthesisCall.emitted_preparation_iff]
    exact composes_none_iff (Preparation.freshCircuit_eq_ok rfl rfl hc).1
  constructor
  · intro h
    obtain ⟨hτ, c, gs?, hc, hg, heq⟩ := exists_of_makes h
    rw [(Preparation.freshCircuit_eq_ok rfl rfl hc).2, List.nil_append] at heq
    refine ⟨⟨c, hc⟩, (hfresh hc).mp ?_⟩
    exact bind_eq_ok_iff.mpr ⟨_, hτ, bind_eq_ok_iff.mpr ⟨_, hg, congrArg Except.ok heq.symm⟩⟩
  · rintro ⟨⟨c, hc⟩, he⟩
    obtain ⟨_, hτ, h⟩ := bind_eq_ok_iff.mp ((hfresh hc).mpr he)
    obtain ⟨gs?, hg, h⟩ := bind_eq_ok_iff.mp h
    have hmakes := makes_of_gates? hτ hc hg
    rw [(Preparation.freshCircuit_eq_ok rfl rfl hc).2, List.nil_append] at hmakes
    exact Except.ok.inj h ▸ hmakes

end Action

/-! ## The result -/

/-- **Options.** Sequences of well-formed gates are inverted and controlled as matrices are. The
adjoint of a call is refused as the call is, or emits its inverse; a call under controls emits what
it emits without, under the controls, if these can be spared; and a register is disentangled by the
inverse of its preparation. What is emitted is what a receiver gains, or what the circuit has that
is made. -/
theorem synthesis_options (hα : ∀ x : α, - -x = x) :
    (∀ gs : List (Gate α), (∀ g ∈ gs, g.WellFormed) →
      inverse (inverse gs) = gs ∧
      (∀ hs, inverse (gs ++ hs) = inverse hs ++ inverse gs) ∧
      (∀ (cs : List Qubit) (ks : List (Gate α)),
        controlBy (cs.map Datum.qubit) (inverse gs) = .ok ks ↔
          ∃ hs, controlBy (cs.map Datum.qubit) gs = .ok hs ∧ ks = inverse hs) ∧
      ∀ (cs ds : List Qubit) (ks : List (Gate α)),
        controlBy (cs.map Datum.qubit) gs >>= controlBy (ds.map Datum.qubit) = .ok ks ↔
          controlBy ((ds ++ cs).map Datum.qubit) gs = .ok ks) ∧
    (∀ (frame : Option (Circuit α)) (c' c : SynthesisCall α), c'.Adjoint c →
      Agree Inverts (c'.emitted frame) (c.emitted frame)) ∧
    (∀ (frame : Option (Circuit α)) (register controls : List (Datum α)) (c' c : SynthesisCall α),
      SynthesisCall.UnderControls register controls c' c → ∀ gs, c'.emitted frame = .ok gs ↔
        ∃ cs hs, Operands.Spare frame register controls cs ∧ c.emitted frame = .ok hs ∧
          controlBy (cs.map Datum.qubit) hs = .ok gs) ∧
    (∀ (frame : Option (Circuit α)) (τ : α) (coefficients controls : List (Datum α))
      (target : Datum α), Entry.Nonzero coefficients → ∀ gs,
        (SynthesisCall.unpreparation τ coefficients controls target).emitted frame = .ok gs ↔
          ∃ hs, (SynthesisCall.preparation τ coefficients (target :: controls) [] false).emitted
            frame = .ok hs ∧ Inverts gs hs) ∧
    (∀ (c : SynthesisCall α) (s : Session α) (n : Nat) (r : Sink α), s.receivers[n]? = some r →
      ∀ gs, Action.Returns (c.perform n) s ()
          { s with receivers := s.receivers.set n (r.extended gs) } ↔
        c.emitted r.circuit? = .ok gs) ∧
    ∀ (τ : α) (coefficients register controls : List (Datum α)) (adjoint : Bool) (s : Session α)
      (gs : List (Gate α)), Action.Makes
        ⟨τ, coefficients.map Entry.ofDatum, .list register, .list controls, adjoint⟩ s gs ↔
      (∃ c, Preparation.freshCircuit
        ⟨τ, coefficients.map Entry.ofDatum, .list register, .list controls, adjoint⟩
        ("circuit_" ++ toString s.receivers.length) = .ok c) ∧
      (SynthesisCall.preparation τ coefficients register controls adjoint).emitted none =
        .ok gs := by
  refine ⟨fun gs hg => ?_, fun frame c' c h => h.emitted_agree hα frame,
    fun frame register controls c' c h gs => h.emitted_iff,
    fun frame τ coefficients controls target hne gs => unpreparation_emitted_iff hα hne,
    fun c s n r hr gs => c.performs_iff hr gs,
    fun τ coefficients register controls adjoint s gs => Action.makes_iff⟩
  exact ⟨inverse_inverse hα hg, fun hs => inverse_append gs hs,
    fun cs ks => controlBy_inverse hg, fun cs ds ks => controlBy_controlBy hg⟩

open SynthesisCall in
/-- The even superposition of one qubit, disentangled and prepared. -/
theorem synthesis_options_even :
    ∃ gs hs, (unpreparation (0 : ℝ) [.list [.number 1, .number 0], .list [.number 1, .number 0]] []
        (.qubit ⟨0, "a"⟩)).emitted none = .ok gs ∧
      (preparation (0 : ℝ) [.list [.number 1, .number 0], .list [.number 1, .number 0]]
        [.qubit ⟨0, "a"⟩] [] false).emitted none = .ok hs ∧
      Inverts gs hs ∧ inverse (inverse gs) = gs := by
  have hneg : ∀ x : ℝ, - -x = x := neg_neg
  have hnonzero : Entry.Nonzero
      [(.list [.number 1, .number 0] : Datum ℝ), .list [.number 1, .number 0]] :=
    ⟨_, List.mem_cons_self .., ⟨1, 0⟩, rfl, by simp⟩
  have hnumeric : ∀ d ∈ (unpreparation (0 : ℝ) [.list [.number 1, .number 0],
      .list [.number 1, .number 0]] [] (.qubit ⟨0, "a"⟩)).coefficients, d.Numeric := by
    simp [SynthesisCall.coefficients, Datum.Numeric, Datum.items?, Datum.toNumber, Datum.number?]
  have haccepted : (unpreparation (0 : ℝ) [.list [.number 1, .number 0],
      .list [.number 1, .number 0]] [] (.qubit ⟨0, "a"⟩)).Accepted none [⟨0, "a"⟩] := {
    tolerance_ok := by simp [tolerance]
    names := .cons (.free _) .nil
    distinct := by decide
    fits := by simp [SynthesisCall.count, width]
    wellFormed := id
    pairs := by simp [SynthesisCall.coefficients, Datum.IsPair, Datum.items?] }
  obtain ⟨gs, hgs, hon⟩ := emitted_of_accepted hnumeric haccepted
  have hwell : ∀ g ∈ gs, g.WellFormed := fun g hg => (hon g hg).toWellFormed
  obtain ⟨hs, hhs, hinv⟩ :=
    ((synthesis_options hneg).2.2.2.1 none 0 _ [] (.qubit ⟨0, "a"⟩) hnonzero gs).mp hgs
  exact ⟨gs, hs, hgs, hhs, hinv, ((synthesis_options hneg).1 gs hwell).1⟩

end StateSynthesis
