import StateSynthesis.Circuit.Derive
import StateSynthesis.Circuit.Extend
import StateSynthesis.Circuit.Instruct
import StateSynthesis.Environment
import StateSynthesis.Proofs.Acceptance
import StateSynthesis.Proofs.Support

/-!
Sound values. For a property of qubits, gates and circuits are sound if they are well formed and
all their qubits have the property, and a value is sound if every qubit and every gate in it is.
Whatever the operations on gates and circuits make of sound values is sound, also where it stops
half-way (`extend_sound`, `accept_sound`), and so are the gates of the synthesis
(`MultiplexedRotation.yields_gates` and its siblings).
-/
namespace StateSynthesis

/-! ## Results of computations -/

section Yields

variable {α β γ δ : Type} {P : β → Prop} {Q : γ → Prop}

/-- What the computation returns, if it returns, has the property. -/
def Yields (P : β → Prop) (x : Except (Fault α) β) : Prop := ∀ b, x = .ok b → P b

theorem yields_ok {b : β} (h : P b) : Yields P (.ok b : Except (Fault α) β) := by
  rintro _ ⟨⟩
  exact h

theorem yields_error (f : Fault α) : Yields P (.error f : Except (Fault α) β) := by
  rintro _ ⟨⟩

theorem Yields.bind {x : Except (Fault α) β} {k : β → Except (Fault α) γ} (hx : Yields P x)
    (hk : ∀ b, P b → Yields Q (k b)) : Yields Q (x >>= k) := by
  intro c hc
  obtain ⟨b, hb, hc⟩ := bind_eq_ok_iff.mp hc
  exact hk b (hx b hb) c hc

/-- The rest of a computation that may start with anything. -/
theorem Yields.after {x : Except (Fault α) β} {k : β → Except (Fault α) γ}
    (hk : ∀ b, Yields Q (k b)) : Yields Q (x >>= k) :=
  Yields.bind (P := fun _ => True) (fun _ _ => trivial) fun b _ => hk b

theorem yields_mapM {k : δ → Except (Fault α) β} {ds : List δ} (h : ∀ d ∈ ds, Yields P (k d)) :
    Yields (fun bs => ∀ b ∈ bs, P b) (ds.mapM k) := by
  induction ds with
  | nil => exact yields_ok (by simp)
  | cons d ds ih =>
    obtain ⟨hd, hds⟩ := List.forall_mem_cons.mp h
    rw [List.mapM_cons]
    exact hd.bind fun b hb => (ih hds).bind fun bs hbs =>
      yields_ok (List.forall_mem_cons.mpr ⟨hb, hbs⟩)

end Yields

/-! ## Soundness -/

variable {α : Type} [Scalar α] {P P' : Qubit → Prop}

structure Gate.Sound (P : Qubit → Prop) (g : Gate α) : Prop extends Gate.WellFormed g where
  qubits_sound : ∀ q ∈ g.qubits, P q

structure Circuit.Sound (P : Qubit → Prop) (c : Circuit α) : Prop
    extends Circuit.WellFormed c where
  qubits_sound : ∀ q ∈ c.qubits, P q

def Sink.Sound (P : Qubit → Prop) : Sink α → Prop
  | circuit c => c.Sound P
  | list gs => ∀ g ∈ gs, g.Sound P

/-- What is in a table is out of reach. -/
inductive Datum.Sound (P : Qubit → Prop) : Datum α → Prop
  | absent : Sound P .absent
  | flag (b : Bool) : Sound P (.flag b)
  | integer (n : Int) : Sound P (.integer n)
  | number (x : α) : Sound P (.number x)
  | text (s : String) : Sound P (.text s)
  | list {items : List (Datum α)} (h : ∀ d ∈ items, Sound P d) : Sound P (.list items)
  | table (entries : List (String × Datum α)) : Sound P (.table entries)
  | qubit {q : Qubit} (h : P q) : Sound P (.qubit q)
  | gate {g : Gate α} (h : g.Sound P) : Sound P (.gate g)
  | circuit (n : Nat) : Sound P (.circuit n)
  | gates {gs : List (Gate α)} (n : Nat) (h : ∀ g ∈ gs, g.Sound P) : Sound P (.gates n gs)

def Environment.Sound (P : Qubit → Prop) : Environment α → Prop
  | conjugation vs => ∀ d ∈ vs, d.Sound P
  | control cs => ∀ d ∈ cs, d.Sound P
  | inversion | bare => True

theorem Gate.Sound.mono {g : Gate α} (h : g.Sound P) (hP : ∀ q, P q → P' q) : g.Sound P' :=
  ⟨h.toWellFormed, fun q hq => hP q (h.qubits_sound q hq)⟩

theorem Circuit.Sound.mono {c : Circuit α} (h : c.Sound P) (hP : ∀ q, P q → P' q) :
    c.Sound P' := ⟨h.toWellFormed, fun q hq => hP q (h.qubits_sound q hq)⟩

theorem Sink.Sound.mono {r : Sink α} (h : r.Sound P) (hP : ∀ q, P q → P' q) : r.Sound P' := by
  cases r with
  | circuit c => exact Circuit.Sound.mono h hP
  | list gs => exact fun g hg => (h g hg).mono hP

theorem Datum.Sound.mono {d : Datum α} (h : d.Sound P) (hP : ∀ q, P q → P' q) :
    d.Sound P' := by
  induction h with
  | list _ ih => exact .list ih
  | qubit h => exact .qubit (hP _ h)
  | gate h => exact .gate (h.mono hP)
  | gates n h => exact .gates n fun g hg => (h g hg).mono hP
  | absent => exact .absent
  | flag b => exact .flag b
  | integer n => exact .integer n
  | number x => exact .number x
  | text s => exact .text s
  | table entries => exact .table entries
  | circuit n => exact .circuit n

theorem Environment.Sound.mono {e : Environment α} (h : e.Sound P) (hP : ∀ q, P q → P' q) :
    e.Sound P' := by
  cases e with
  | conjugation vs => exact fun d hd => (h d hd).mono hP
  | control cs => exact fun d hd => (h d hd).mono hP
  | inversion => trivial
  | bare => trivial

theorem Circuit.Sound.gate_sound {c : Circuit α} (h : c.Sound P) {g : Gate α}
    (hg : g ∈ c.gates) : g.Sound P :=
  ⟨h.gate_wellFormed g hg, fun q hq => h.qubits_sound q (h.gate_qubits g hg q hq)⟩

theorem Sink.Sound.gate_sound {r : Sink α} (h : r.Sound P) {g : Gate α} (hg : g ∈ r.gates) :
    g.Sound P := by
  cases r with
  | circuit c => exact Circuit.Sound.gate_sound h hg
  | list gs => exact h g hg

/-! ## Values -/

mutual

theorem Literal.datum_sound : ∀ l : Literal α, l.datum.Sound P
  | .absent => .absent
  | .flag b => .flag b
  | .integer n => .integer n
  | .number x => .number x
  | .text s => .text s
  | .list items => .list (Literal.data_sound items)
  | .table _ => .table _

theorem Literal.data_sound : ∀ ls : List (Literal α), ∀ d ∈ Literal.data ls, d.Sound P
  | [], _, hd => by cases hd
  | l :: ls, d, hd => by
    rcases List.mem_cons.mp hd with rfl | hd
    · exact l.datum_sound
    · exact Literal.data_sound ls d hd

end

namespace Datum

variable {d : Datum α} {ds : List (Datum α)}

theorem Sound.items? (h : d.Sound P) (hds : d.items? = some ds) : ∀ e ∈ ds, e.Sound P := by
  intro e he
  cases h <;> cases hds
  case text s =>
    obtain ⟨c, -, rfl⟩ := List.mem_map.mp he
    exact .text _
  case list h => exact h e he
  case table entries =>
    obtain ⟨p, -, rfl⟩ := List.mem_map.mp he
    exact .text _
  case gates n h =>
    obtain ⟨g, hg, rfl⟩ := List.mem_map.mp he
    exact .gate (h g hg)

theorem Sound.members? (h : d.Sound P) (hds : d.members? = some ds) :
    ∀ e ∈ ds, e.Sound P := by
  cases h with
  | list h => exact (Sound.list h).items? hds
  | gates n h => exact (Sound.gates n h).items? hds
  | _ => cases hds

theorem Sound.qubitItems? (h : d.Sound P) (hds : d.qubitItems? = some ds) :
    ∀ e ∈ ds, e.Sound P := by
  cases h with
  | qubit h =>
    cases hds
    exact List.forall_mem_singleton.mpr (.qubit h)
  | list h => exact (Sound.list h).items? hds
  | gates n h => exact (Sound.gates n h).items? hds
  | text s => exact (Sound.text s).items? hds
  | table entries => exact (Sound.table entries).items? hds
  | _ => cases hds

theorem Sound.yields_items (h : d.Sound P) : Yields (∀ e ∈ ·, e.Sound P) d.items := by
  unfold items
  split
  · rename_i ds hds
    exact yields_ok (h.items? hds)
  · exact yields_error _

theorem Sound.qubit_sound {q : Qubit} (h : (Datum.qubit q : Datum α).Sound P) : P q := by
  cases h with
  | qubit h => exact h

theorem Sound.qubit?_sound (h : d.Sound P) : ∀ q ∈ d.qubit?, P q := by
  rintro q hq
  cases h with
  | qubit h =>
    cases hq
    exact h
  | _ => cases hq

theorem filterMap_qubit?_sound (h : ∀ e ∈ ds, e.Sound P) :
    ∀ q ∈ ds.filterMap Datum.qubit?, P q := by
  intro q hq
  obtain ⟨e, he, hq⟩ := List.mem_filterMap.mp hq
  exact (h e he).qubit?_sound q hq

end Datum

/-! ## Gates -/

namespace Gate

variable {g : Gate α} {d : Datum α} {k : Kind} {a : α}

theorem Sound.inverse (h : g.Sound P) : g.inverse.Sound P :=
  ⟨h.toWellFormed.inverse, h.qubits_sound⟩

theorem yields_make {target : Option Qubit} {controls : List Qubit}
    (ht : ∀ q ∈ target, P q) (hc : ∀ q ∈ controls, P q) :
    Yields (Sound P) (make k target controls a) := by
  intro g hg
  have hw := make_wellFormed hg
  obtain ⟨-, -, -, rfl⟩ := make_eq_ok_iff.mp hg
  refine ⟨hw, fun q hq => ?_⟩
  rcases List.mem_append.mp hq with hq | hq
  · exact hc q hq
  · exact ht q (Option.mem_toList.mp hq)

omit [Scalar α] in
theorem yields_controlOf (h : ∀ q ∈ d.qubit?, P q) : Yields P (controlOf d) := by
  unfold controlOf
  split
  · rename_i q hq
    exact yields_ok (h q hq)
  · exact yields_error _

theorem yields_targetOf (h : d.Sound P) :
    Yields (∀ q ∈ ·, P q) (targetOf k d) := by
  cases h with
  | absent =>
    show Yields _ (if k == .gphase then .ok none else .error (.missingTarget k))
    split
    · exact yields_ok (by simp)
    · exact yields_error _
  | qubit h =>
    refine yields_ok ?_
    rintro _ ⟨⟩
    exact h
  | _ => exact yields_error _

/-- The angle of a gate comes last, and only kinds with a parameter get one. -/
theorem WellFormed.withAngle (h : g.WellFormed) (hp : g.kind.isParametrized = true) (a : α) :
    { g with angle := a }.WellFormed :=
  ⟨h.target_or_phase, h.target_free, h.controls_nodup, fun hn => by simp [hp] at hn⟩

section Operands

variable {controls : Except (Fault α) (List (Datum α))} {angle : Except (Fault α) α}

/-- From whatever operands a gate is made, it is one that could have been made from its parts. -/
theorem ofOperands_wellFormed : Yields WellFormed (ofOperands k d controls angle) := by
  refine Yields.after fun target => Yields.after fun ds => Yields.after fun cs => ?_
  refine Yields.bind (P := fun g => g.WellFormed ∧ g.kind = k) (fun g hg => ?_) fun g hg => ?_
  · refine ⟨make_wellFormed hg, ?_⟩
    obtain ⟨-, -, -, rfl⟩ := make_eq_ok_iff.mp hg
    rfl
  · split
    · rename_i hp
      exact Yields.after fun a => yields_ok (hg.1.withAngle (hg.2 ▸ hp) a)
    · exact yields_ok hg.1

theorem yields_ofOperands (ht : d.Sound P) (hc : Yields (∀ e ∈ ·, e.Sound P) controls) :
    Yields (Sound P) (ofOperands k d controls angle) := by
  have hqubits : Yields (fun g : Gate α => ∀ q ∈ g.qubits, P q)
      (ofOperands k d controls angle) := by
    refine (yields_targetOf ht).bind fun target htarget => hc.bind fun ds hds => ?_
    refine (yields_mapM fun e he => yields_controlOf (hds e he).qubit?_sound).bind
      fun cs hcs => ?_
    refine (yields_make htarget hcs).bind fun g hg => ?_
    split
    · exact Yields.after fun a => yields_ok hg.qubits_sound
    · exact yields_ok hg.qubits_sound
  exact fun g hg => ⟨ofOperands_wellFormed g hg, hqubits g hg⟩

end Operands

theorem yields_ofData {kind target controls : Datum α} (ht : target.Sound P)
    (hc : controls.Sound P) : Yields (Sound P) (ofData kind target controls a) :=
  Yields.after fun _ => yields_ofOperands ht hc.yields_items

theorem yields_finish {rest : List (Datum α)} {angle : Except (Fault α) α} (ht : d.Sound P)
    (hr : ∀ e ∈ rest, e.Sound P) : Yields (Sound P) (ofArguments.finish k d rest angle) := by
  unfold ofArguments.finish
  split
  · exact yields_ofOperands ht (yields_ok (by simp))
  · exact yields_ofOperands ht (hr _ (List.mem_singleton_self _)).yields_items
  · exact yields_error _

theorem yields_ofArguments {ds : List (Datum α)} (h : ∀ e ∈ ds, e.Sound P) :
    Yields (Sound P) (ofArguments k ds) := by
  unfold ofArguments
  split
  · exact yields_finish .absent fun e he => h e (List.mem_cons_of_mem _ he)
  · exact yields_finish (h _ (by simp)) fun e he => h e (by simp [he])
  · exact yields_finish (h _ (by simp)) fun e he => h e (by simp [he])
  · exact yields_error _

theorem yields_controlBy {cs : List (Datum α)} (hc : ∀ q ∈ cs.filterMap Datum.qubit?, P q)
    (hg : g.Sound P) : Yields (Sound P) (controlBy cs g) := by
  have hcs : ∀ e ∈ cs, ∀ q ∈ e.qubit?, P q := fun e he q hq =>
    hc q (List.mem_filterMap.mpr ⟨e, he, hq⟩)
  refine (yields_mapM fun e he => yields_controlOf (hcs e he)).bind fun qs hqs => ?_
  refine yields_make (fun q hq => ?_) fun q hq => ?_
  · exact hg.qubits_sound q (List.mem_append_right _ (Option.mem_toList.mpr hq))
  · rcases List.mem_append.mp hq with hq | hq
    · exact hqs q hq
    · exact hg.qubits_sound q (List.mem_append_left _ hq)

theorem yields_ofDatum (h : d.Sound P) : Yields (Sound P) (ofDatum d) := by
  cases h with
  | gate h => exact yields_ok h
  | _ => exact yields_error _

theorem yields_rewire (w : Wiring α) : Yields WellFormed (g.rewire w) := by
  have hrest (target : Datum α) : Yields WellFormed (do
      let controls ← g.controls.mapM w.find
      ofOperands g.kind target (.ok controls) (.ok g.angle)) :=
    Yields.after fun cs => ofOperands_wellFormed
  unfold rewire
  cases g.target with
  | none => exact hrest .absent
  | some q => exact Yields.after hrest

end Gate

namespace Sequence

variable {gs : List (Gate α)} {cs : List (Datum α)}

theorem inverse_sound (h : ∀ g ∈ gs, g.Sound P) : ∀ g ∈ inverse gs, g.Sound P := by
  intro g hg
  obtain ⟨f, hf, rfl⟩ := List.mem_map.mp hg
  exact (h f (List.mem_reverse.mp hf)).inverse

theorem conjugated_sound {vs : List (Gate α)} (hv : ∀ g ∈ vs, g.Sound P)
    (hg : ∀ g ∈ gs, g.Sound P) : ∀ g ∈ conjugated vs gs, g.Sound P := by
  unfold conjugated
  split
  · simp
  · exact List.forall_mem_append.mpr ⟨List.forall_mem_append.mpr ⟨hv, hg⟩, inverse_sound hv⟩

theorem yields_controlBy (hc : ∀ q ∈ cs.filterMap Datum.qubit?, P q)
    (hg : ∀ g ∈ gs, g.Sound P) :
    Yields (∀ g ∈ ·, g.Sound P) (controlBy cs gs) := by
  unfold controlBy
  split
  · exact yields_ok hg
  · exact yields_mapM fun g hm => Gate.yields_controlBy hc (hg g hm)

theorem On.sound {qs : List Qubit} (h : On qs gs) (hqs : ∀ q ∈ qs, P q) :
    ∀ g ∈ gs, g.Sound P :=
  fun g hg => ⟨(h g hg).toWellFormed, fun q hq => hqs q ((h g hg).qubits_mem q hq)⟩

end Sequence

theorem Environment.yields_transform {e : Environment α} (he : e.Sound P) {gs : List (Gate α)}
    (hg : ∀ g ∈ gs, g.Sound P) : Yields (∀ g ∈ ·, g.Sound P) (e.transform gs) := by
  cases e with
  | conjugation vs =>
    rw [transform]
    split
    · exact yields_ok (by simp)
    · exact (yields_mapM fun d hd => Gate.yields_ofDatum (he d hd)).bind fun hs hhs =>
        yields_ok (Sequence.conjugated_sound hhs hg)
  | inversion => exact yields_ok (Sequence.inverse_sound hg)
  | control cs => exact Sequence.yields_controlBy (Datum.filterMap_qubit?_sound he) hg
  | bare => exact yields_error _

/-! ## Circuits -/

namespace Circuit

variable {c : Circuit α} {d e : Datum α} {k : Kind}

theorem empty_sound (name : String) : (empty name : Circuit α).Sound P :=
  ⟨empty_wellFormed name, by simp [empty]⟩

theorem Sound.clear (h : c.Sound P) : c.clear.Sound P :=
  ⟨⟨h.identifiers_nodup, by simp [Circuit.clear], by simp [Circuit.clear]⟩, h.qubits_sound⟩

theorem Sound.inverse (h : c.Sound P) : c.inverse.Sound P := by
  have hg : ∀ g ∈ Sequence.inverse c.gates, g.WellFormed ∧ ∀ q ∈ g.qubits, q ∈ c.qubits := by
    intro g hg
    obtain ⟨f, hf, rfl⟩ := List.mem_map.mp hg
    have hf := List.mem_reverse.mp hf
    exact ⟨(h.gate_wellFormed f hf).inverse, h.gate_qubits f hf⟩
  exact ⟨⟨h.identifiers_nodup, fun g hm => (hg g hm).1, fun g hm => (hg g hm).2⟩,
    h.qubits_sound⟩

omit [Scalar α] in
theorem qubits_addQubit {d : Circuit α} {q : Qubit} (h : c.addQubit q = .ok d) :
    d.qubits = c.qubits ++ [q] := by
  unfold addQubit at h
  split at h
  · cases h
  · cases h
    rfl

theorem Sound.yields_addQubit (h : c.Sound P) {q : Qubit} (hq : P q) :
    Yields (Sound P) (c.addQubit q) := by
  intro d hd
  refine ⟨addQubit_wellFormed h.toWellFormed hd, ?_⟩
  rw [qubits_addQubit hd]
  exact List.forall_mem_append.mpr ⟨h.qubits_sound, List.forall_mem_singleton.mpr hq⟩

theorem Sound.yields_append (h : c.Sound P) {g : Gate α} (hg : g.WellFormed) :
    Yields (Sound P) (c.append g) := by
  intro d hd
  have hw := append_wellFormed h.toWellFormed hg hd
  unfold append at hd
  split at hd
  · cases hd
  · cases hd
    exact ⟨hw, h.qubits_sound⟩

theorem Sound.yields_extendBy (h : c.Sound P) {w : Option (Wiring α)} {g : Gate α}
    (hg : g.WellFormed) : Yields (Sound P) (c.extendBy w g) := by
  cases w with
  | none => exact h.yields_append hg
  | some w => exact (Gate.yields_rewire w).bind fun _ hg' => h.yields_append hg'

/-- A circuit that is extended is sound also where a gate was refused. -/
theorem extend_sound (w : Option (Wiring α)) {gs : List (Gate α)} (hg : ∀ g ∈ gs, g.WellFormed)
    (h : c.Sound P) : (c.extend w gs).1.Sound P := by
  induction gs generalizing c with
  | nil => exact h
  | cons g gs ih =>
    obtain ⟨hg, hgs⟩ := List.forall_mem_cons.mp hg
    unfold extend
    split
    · rename_i d hd
      exact ih hgs (h.yields_extendBy hg d hd)
    · exact h

theorem extendItself_sound (w : Option (Wiring α)) (rounds : Nat) {gs : List (Gate α)}
    (hg : ∀ g ∈ gs, g.WellFormed) (h : c.Sound P) :
    (c.extendItself w rounds gs).1.Sound P := by
  induction rounds generalizing c gs with
  | zero => exact h
  | succ rounds ih =>
    have hd := extend_sound w hg h
    unfold extendItself
    split
    · rename_i d f hextend
      rwa [hextend] at hd
    · rename_i d hextend
      rw [hextend] at hd
      exact ih (fun g hm => hd.gate_wellFormed g (List.mem_of_mem_drop hm)) hd

/-- A gate that is made and appended may be on any qubits: those of others are refused. -/
theorem Sound.yields_made (h : c.Sound P) (k : Kind) (target : Option Qubit)
    (controls : List Qubit) (a : α) :
    Yields (Sound P) (Gate.make k target controls a >>= c.append) :=
  Yields.bind (fun _ hg => Gate.make_wellFormed hg) fun _ hg => h.yields_append hg

theorem Sound.yields_instruct (h : c.Sound P) (name : String) (ds : List (Datum α)) :
    Yields (Sound P) (c.instruct name ds) := by
  have hrotate (k : Kind) (d e : Datum α) : Yields (Sound P) (c.rotate k d e) := by
    unfold rotate
    split
    · exact yields_ok h
    · exact Yields.after fun q => Yields.after fun a => h.yields_made k _ _ a
  have hplace (k : Kind) (d : Datum α) : Yields (Sound P) (c.place k d) :=
    Yields.after fun q => h.yields_made k _ _ _
  have hcontrolled (d e : Datum α) : Yields (Sound P) (c.placeControlled d e) :=
    Yields.after fun p => Yields.after fun q => h.yields_made .x _ _ _
  unfold instruct
  repeat' split
  · exact hcontrolled _ _
  · exact yields_error _
  · exact yields_error _
  · exact Yields.after fun a => h.yields_made .gphase none [] a
  · exact yields_error _
  · exact hrotate _ _ _
  · exact hplace _ _
  · exact yields_error _

end Circuit

namespace Sink

variable {r : Sink α} {d : Datum α}

theorem Sound.yields_append (h : r.Sound P) {g : Gate α} (hg : g.Sound P) :
    Yields (Sound P) (r.append g) := by
  cases r with
  | circuit c =>
    exact (Circuit.Sound.yields_append h hg.toWellFormed).bind fun d hd => yields_ok hd
  | list gs => exact yields_ok (List.forall_mem_append.mpr ⟨h, List.forall_mem_singleton.mpr hg⟩)

theorem Sound.yields_appendDatum (h : r.Sound P) (hd : d.Sound P) :
    Yields (Sound P) (r.appendDatum d) := by
  cases hd with
  | gate hg => exact h.yields_append hg
  | _ => exact yields_error _

/-- A receiver is sound also where it refused a gate. -/
theorem accept_sound (h : r.Sound P) {gs : List (Gate α)} (hg : ∀ g ∈ gs, g.Sound P) :
    (r.accept gs).1.Sound P := by
  induction gs generalizing r with
  | nil => exact h
  | cons g gs ih =>
    obtain ⟨hg, hgs⟩ := List.forall_mem_cons.mp hg
    unfold accept
    split
    · rename_i t ht
      exact ih (h.yields_append hg t ht) hgs
    · exact h

end Sink

/-! ## Synthesis -/

namespace Operands

variable {frame : Option (Circuit α)} {d : Datum α}

theorem yields_resolve (hf : ∀ c ∈ frame, c.Sound P) (hd : d.Sound P) :
    Yields P (resolve frame d) := by
  intro q hq
  cases resolve_eq_ok_iff.mp hq with
  | free => exact hd.qubit_sound
  | member => exact hd.qubit_sound
  | fromStart _ hq => exact (hf _ rfl).qubits_sound q (List.mem_of_getElem? hq)
  | fromEnd _ hq =>
    exact (hf _ rfl).qubits_sound q (List.mem_reverse.mp (List.mem_of_getElem? hq))

theorem yields_resolveAll (hf : ∀ c ∈ frame, c.Sound P) (hd : d.Sound P) :
    Yields (∀ q ∈ ·, P q) (resolveAll frame d) :=
  hd.yields_items.bind fun _ hds => yields_mapM fun e he => yields_resolve hf (hds e he)

end Operands

section Synthesis

variable {frame : Option (Circuit α)} (hf : ∀ c ∈ frame, c.Sound P)

include hf

theorem MultiplexedRotation.yields_gates (r : MultiplexedRotation α) (hc : r.controls.Sound P)
    (ht : r.target.Sound P) (ho : r.outer.Sound P) :
    Yields (∀ g ∈ ·, g.Sound P) (r.gates frame) := by
  intro gs hgs
  obtain ⟨axis, cs, os, t, h⟩ := admits_of_gates hgs
  obtain ⟨gs', hgs', hon⟩ := h.exists_gates
  obtain rfl := Except.ok.inj (hgs'.symm.trans hgs)
  have hcs := Operands.yields_resolveAll hf hc cs h.controls_ok
  have hos := Operands.yields_resolveAll hf ho os h.outer_ok
  have ht := Operands.yields_resolve hf ht t h.target_ok
  exact hon.sound (List.forall_mem_append.mpr ⟨List.forall_mem_append.mpr ⟨hcs, hos⟩,
    List.forall_mem_singleton.mpr ht⟩)

theorem DiagonalUnitary.yields_gates (d : DiagonalUnitary α) (hr : d.register.Sound P)
    (hc : d.controls.Sound P) : Yields (∀ g ∈ ·, g.Sound P) (d.gates frame) := by
  intro gs hgs
  obtain ⟨rs, cs, h⟩ := admits_of_gates hgs
  obtain ⟨gs', hgs', hon⟩ := h.exists_gates
  obtain rfl := Except.ok.inj (hgs'.symm.trans hgs)
  exact hon.sound (List.forall_mem_append.mpr
    ⟨Operands.yields_resolveAll hf hr rs h.register_ok,
      Operands.yields_resolveAll hf hc cs h.controls_ok⟩)

theorem Unpreparation.yields_gates (u : Unpreparation α) (hc : u.controls.Sound P)
    (ht : u.target.Sound P) : Yields (∀ g ∈ ·, g.Sound P) (u.gates frame) := by
  intro gs hgs
  obtain ⟨cs, t, as, h⟩ := admits_of_gates hgs
  obtain ⟨gs', hgs', hon⟩ := h.exists_gates
  obtain rfl := Except.ok.inj (hgs'.symm.trans hgs)
  exact hon.sound (List.forall_mem_append.mpr
    ⟨Operands.yields_resolveAll hf hc cs h.controls_ok,
      List.forall_mem_singleton.mpr (Operands.yields_resolve hf ht t h.target_ok)⟩)

theorem Preparation.yields_gates? (p : Preparation α) (hr : p.register.Sound P)
    (hc : p.controls.Sound P) :
    Yields (fun gs? => ∀ gs ∈ gs?, ∀ g ∈ gs, g.Sound P) (p.gates? frame) := by
  intro gs? hgs
  obtain ⟨rs, cs, as, h, has⟩ := resolves_of_gates? hgs
  obtain ⟨gs?', hgs', hon⟩ := h.exists_gates? has
  obtain rfl := Except.ok.inj (hgs'.symm.trans hgs)
  exact fun gs hm => (hon gs hm).sound (List.forall_mem_append.mpr
    ⟨Operands.yields_resolveAll hf hr rs h.register_ok,
      Operands.yields_resolveAll hf hc cs h.controls_ok⟩)

end Synthesis

theorem Preparation.yields_freshCircuit (p : Preparation α) (name : String)
    (hr : p.register.Sound P) (hc : p.controls.Sound P) :
    Yields (Circuit.Sound P) (p.freshCircuit name) := by
  refine hr.yields_items.bind fun ds hds => hc.yields_items.bind fun es hes => ?_
  have hqs : ∀ q ∈ (ds ++ es).filterMap Datum.qubit?, P q :=
    Datum.filterMap_qubit?_sound (List.forall_mem_append.mpr ⟨hds, hes⟩)
  have hfold (qs : List Qubit) (hqs : ∀ q ∈ qs, P q) {c : Circuit α} (h : c.Sound P) :
      Yields (Circuit.Sound P)
        (qs.foldlM (fun c q => if c.qubits.contains q then pure c else c.addQubit q) c) := by
    induction qs generalizing c with
    | nil => exact yields_ok h
    | cons q qs ih =>
      obtain ⟨hq, hqs⟩ := List.forall_mem_cons.mp hqs
      rw [List.foldlM_cons]
      refine Yields.bind (P := Circuit.Sound P) ?_ fun d hd => ih hqs hd
      split
      · exact yields_ok h
      · exact h.yields_addQubit hq
  exact hfold _ hqs (Circuit.empty_sound name)

end StateSynthesis
