import StateSynthesis.Proofs.Allocation
import StateSynthesis.Proofs.Resolution
import StateSynthesis.Script.Run

/-!
Reading operands. The qubits of a circuit that is in a session can be written down by their places
in the circuit, and gates by their parts. What is written down is read without a change to the
session: a qubit as itself (`reads_qubit`), and a gate as what can be made of its parts
(`reads_gate`).
-/
namespace StateSynthesis

variable {α β γ : Type}

/-! ## Actions that only look -/

namespace Action

/-- The action, started in the session `s`, answers `e` and leaves the session as it is. -/
def Reads (a : Action α β) (s : Session α) (e : Except (Fault α) β) : Prop := a.run.run s = (e, s)

variable {s : Session α}

theorem Reads.returns {a : Action α β} {e : Except (Fault α) β} {b : β} (h : Reads a s e)
    (he : e = .ok b) : Returns a s b s := by
  subst he
  exact h

theorem Reads.fails {a : Action α β} {e : Except (Fault α) β} {f : Fault α} (h : Reads a s e)
    (he : e = .error f) : Fails a s f s := by
  subst he
  exact h

theorem Reads.bind {a : Action α β} {e : Except (Fault α) β} {f : β → Action α γ}
    {k : β → Except (Fault α) γ} (ha : Reads a s e) (hf : ∀ b, Reads (f b) s (k b)) :
    Reads (a >>= f) s (e >>= k) := by
  cases e with
  | error g => exact Fails.bind (ha.fails rfl) f
  | ok b => exact ((ha.returns rfl).run_bind f).trans (hf b)

theorem Reads.mapM {δ : Type} {f : δ → Action α β} {k : δ → Except (Fault α) β} {ds : List δ}
    (h : ∀ d ∈ ds, Reads (f d) s (k d)) : Reads (ds.mapM f) s (ds.mapM k) := by
  induction ds with
  | nil => rfl
  | cons d ds ih =>
    obtain ⟨hd, hds⟩ := List.forall_mem_cons.mp h
    rw [List.mapM_cons, List.mapM_cons]
    exact hd.bind fun b => (ih hds).bind fun bs => rfl

end Action

open StateSynthesis.Action

/-! ## What is written down -/

/-- A qubit by its place in the circuit with the name `circuit`. -/
def Qubit.written (circuit : String) (qs : List Qubit) (q : Qubit) : Script.Ref α :=
  .slot circuit (qs.idxOf q)

def Gate.written (circuit : String) (qs : List Qubit) (g : Gate α) : Script.GateRef α :=
  .build (.text g.kind.name) (g.target.elim (.value .absent) (Qubit.written circuit qs))
    (.many (g.controls.map (Qubit.written circuit qs))) (.number g.angle)

/-- The circuit `c` is in the session, under a name. -/
def Session.Shows (s : Session α) (name : String) (c : Circuit α) : Prop :=
  ∃ m, s.named name = some (.receiver m) ∧ s.receivers[m]? = some (.circuit c)

/-! ## What is read -/

section Operands

variable {s : Session α} {circuit : String} {c : Circuit α}

theorem returns_named {name : String} {o : Object α} (h : s.named name = some o) :
    Returns (named (some name)) s (some o) s := by
  refine (returns_get s).bind ?_
  rw [Option.bind_some, h]
  exact returns_pure _ s

theorem reads_qubit (h : s.Shows circuit c) {q : Qubit} (hq : q ∈ c.qubits) :
    Reads (Script.Ref.resolve (q.written circuit c.qubits)) s (.ok (.qubit q)) := by
  obtain ⟨m, hm, hc⟩ := h
  have hslot : Qubit.at? c.qubits (c.qubits.idxOf q) = some q := by
    simp [Qubit.at?, List.getElem?_idxOf hq]
  have hqubits : Returns (qubitsOf (some (.receiver m))) s c.qubits s :=
    (returns_circuit hc).bind (returns_pure _ s)
  refine (returns_named hm).bind (hqubits.bind ?_)
  rw [hslot]
  exact returns_pure _ s

theorem reads_qubits (h : s.Shows circuit c) {qs : List Qubit} (hqs : ∀ q ∈ qs, q ∈ c.qubits) :
    Reads (Script.Refs.resolve (.many (qs.map (Qubit.written circuit c.qubits)))) s
      (.ok (.list (qs.map Datum.qubit))) := by
  have heach : Reads (qs.mapM fun q => Script.Ref.resolve (q.written circuit c.qubits)) s
      (qs.mapM fun q => .ok (.qubit q)) := .mapM fun q hq => reads_qubit h (hqs q hq)
  rw [show (qs.mapM fun q => (.ok (.qubit q) : Except (Fault α) (Datum α))) =
    .ok (qs.map Datum.qubit) from List.mapM_pure] at heach
  rw [Script.Refs.resolve, List.mapM_map]
  exact (heach.returns rfl).map Datum.list

theorem reads_target (h : s.Shows circuit c) {target : Option Qubit}
    (ht : ∀ q ∈ target, q ∈ c.qubits) :
    Reads (Script.Ref.resolve (target.elim (.value .absent) (Qubit.written circuit c.qubits))) s
      (.ok (target.elim .absent Datum.qubit)) := by
  cases target with
  | none => exact returns_pure _ s
  | some q => exact reads_qubit h (ht q rfl)

variable [Scalar α]

/-- The angle of a gate is looked at after the other operands were checked. -/
theorem make_bind_angle (k : Kind) (target : Option Qubit) (controls : List Qubit) (a : α) :
    (do
      let g ← Gate.make k target controls Scalar.zero
      if k.isParametrized then return { g with angle := a } else return g) =
      Gate.make k target controls a := by
  unfold Gate.make
  split
  · rfl
  · split
    · rfl
    · split
      · cases hk : k.isParametrized <;> simp [Gate.angleFor, hk, bind, Except.bind] <;> rfl
      · rfl

omit [Scalar α] in
theorem targetOf_elim (k : Kind) (target : Option Qubit) :
    Gate.targetOf k (target.elim .absent Datum.qubit : Datum α) =
      if target.isNone && k != .gphase then .error (.missingTarget k) else .ok target := by
  cases target with
  | none => cases k <;> rfl
  | some q => rfl

theorem ofData_written (g : Gate α) :
    Gate.ofData (.text g.kind.name) (g.target.elim .absent Datum.qubit)
      (.list (g.controls.map Datum.qubit)) g.angle = g.remake := by
  obtain ⟨k, target, controls, a⟩ := g
  have hkind : Kind.ofDatum (.text k.name : Datum α) = .ok k := by cases k <;> rfl
  have hcontrols : (controls.map (Datum.qubit (α := α))).mapM Gate.controlOf = .ok controls :=
    mapM_map_of_ok (k := Gate.controlOf) (fun q => by rfl) controls
  have hitems : (Datum.list (controls.map (Datum.qubit (α := α)))).items =
      .ok (controls.map Datum.qubit) := rfl
  rw [Gate.ofData, hkind]
  show Gate.ofOperands k _ _ (.ok a) = Gate.make k target controls a
  rw [Gate.ofOperands, targetOf_elim, hitems]
  by_cases hmissing : target.isNone && k != .gphase
  · rw [if_pos hmissing, Gate.make, if_pos hmissing]
    rfl
  · rw [if_neg hmissing, ← make_bind_angle]
    show (do let cs ← (controls.map Datum.qubit).mapM Gate.controlOf; _) = _
    rw [hcontrols]
    rfl

theorem reads_gate (h : s.Shows circuit c) {g : Gate α} (hg : ∀ q ∈ g.qubits, q ∈ c.qubits) :
    Reads (Script.GateRef.resolve (g.written circuit c.qubits)) s (g.remake.map Datum.gate) := by
  have htarget : ∀ q ∈ g.target, q ∈ c.qubits := fun q hq =>
    hg q (List.mem_append_right _ (by simpa using hq))
  have hcontrols : ∀ q ∈ g.controls, q ∈ c.qubits := fun q hq =>
    hg q (List.mem_append_left _ hq)
  refine (((reads_target h htarget).returns rfl).run_bind _).trans ?_
  refine (((reads_qubits h hcontrols).returns rfl).run_bind _).trans ?_
  refine ((returns_ok rfl s).run_bind _).trans ?_
  have hdata : Gate.ofData (Literal.text g.kind.name).datum (g.target.elim .absent .qubit)
      (.list (g.controls.map .qubit)) g.angle = g.remake := ofData_written g
  rw [hdata]
  cases g.remake <;> rfl

end Operands

end StateSynthesis
