import StateSynthesis.Proofs.Allocation
import StateSynthesis.Proofs.Exact
import StateSynthesis.Script.Run

/-!
Leaving environments. If the body or the transformation fails the receiver outside gains nothing,
and if it takes all gates it gains the whole transformed sequence. The gates are handed over one by
one, so a gate that is refused leaves those before it (`Environment.Exits.cut`); only if it is the
first of the sequence the environment emits nothing (`Environment.Exits.complete_or_nothing`). Main
statement: `environment_exit`.
-/
namespace StateSynthesis

variable {α : Type}

variable [Scalar α]

namespace Environment

/-- What the receiver `r` takes when a body is over that has left the gates `held`: for the fault of
the body, the gates that are taken and the fault with which the environment is left. -/
inductive Exits (e : Environment α) (r : Sink α) (held : List (Gate α)) :
    Option (Fault α) → List (Gate α) → Option (Fault α) → Prop
  | complete {gs : List (Gate α)} (ht : e.transform held = .ok gs) (hall : ∀ g ∈ gs, r.Takes g) :
    Exits e r held none gs none
  | failed (f : Fault α) : Exits e r held (some f) [] (some f)
  | untransformed {f : Fault α} (ht : e.transform held = .error f) : Exits e r held none [] (some f)
  | cut {taken rest : List (Gate α)} {g : Gate α} {f : Fault α}
    (ht : e.transform held = .ok (taken ++ g :: rest)) (hall : ∀ k ∈ taken, r.Takes k)
    (hg : r.append g = .error f) : Exits e r held none taken (some f)

theorem exists_exits (e : Environment α) (r : Sink α) (held : List (Gate α))
    (failure : Option (Fault α)) : ∃ taken outcome, e.Exits r held failure taken outcome := by
  cases failure with
  | some f => exact ⟨_, _, .failed f⟩
  | none =>
    cases ht : e.transform held with
    | error f => exact ⟨_, _, .untransformed ht⟩
    | ok gs =>
      rcases r.takes_or_refused gs with hall | ⟨taken, g, rest, f, rfl, hall, hg⟩
      · exact ⟨_, _, .complete ht hall⟩
      · exact ⟨_, _, .cut ht hall hg⟩

namespace Exits

variable {e : Environment α} {r : Sink α} {held taken : List (Gate α)}
  {failure outcome : Option (Fault α)}

/-- An environment whose content is refused with the first gate, or not at all, emits its complete
content or nothing. -/
theorem complete_or_nothing (h : e.Exits r held failure taken outcome)
    (hfirst : ∀ gs, e.transform held = .ok gs →
      (∀ g ∈ gs, r.Takes g) ∨ ∀ g ∈ gs.head?, ¬ r.Takes g) :
    outcome = none ∧ e.transform held = .ok taken ∨ outcome ≠ none ∧ taken = [] := by
  cases h with
  | complete ht _ => exact Or.inl ⟨rfl, ht⟩
  | failed f => exact Or.inr ⟨by simp, rfl⟩
  | untransformed _ => exact Or.inr ⟨by simp, rfl⟩
  | @cut _ rest g f ht hall hg =>
    refine Or.inr ⟨by simp, ?_⟩
    rcases hfirst _ ht with hgs | hgs
    · exact absurd (hgs g (by simp)) (Sink.not_takes_of_append hg)
    · cases taken with
      | nil => rfl
      | cons k ks => exact absurd (hall k (List.mem_cons_self ..)) (hgs k rfl)

end Exits

end Environment

namespace Action

variable {s : Session α} {n buffer : Nat} {r held : Sink α} {e : Environment α}
  {taken : List (Gate α)}

theorem returns_leave (h : e.Exits r held.gates none taken none)
    (hb : s.receivers[buffer]? = some held) (hn : s.receivers[n]? = some r) :
    Returns (leave e buffer (some n)) s ()
      { s with receivers := s.receivers.set n (r.extended taken) } := by
  cases h with
  | complete ht hall =>
    exact (returns_receiver hb).bind ((returns_ok ht s).bind (returns_deliver hn hall))

theorem fails_leave {f : Fault α} (h : e.Exits r held.gates none taken (some f))
    (hb : s.receivers[buffer]? = some held) (hn : s.receivers[n]? = some r) :
    Fails (leave e buffer (some n)) s f
      { s with receivers := s.receivers.set n (r.extended taken) } := by
  refine (returns_receiver hb).bind_fails ?_
  cases h with
  | untransformed ht =>
    rw [Sink.extended_nil, Session.set_receiver_self hn]
    exact (fails_error ht s).bind _
  | cut ht hall hg => exact (returns_ok ht s).bind_fails (fails_deliver hn hall hg)

end Action

/-! ## Runs -/

namespace Script

theorem run_bind {β γ σ : Type} {m : StateM σ β} {k : β → StateM σ γ} {s t : σ} {b : β}
    (h : m.run s = (b, t)) : (m >>= k).run s = (k b).run t := by
  rw [StateT.run_bind, h]
  rfl

omit [Scalar α] in
theorem run_watch {receiver : Option (Object α)} {s t : Session α}
    {part : StateM (Session α) (Option (Emission α) → Report α)}
    {report : Option (Emission α) → Report α} (h : part.run s = (report, t)) :
    (watch receiver part).run s =
      (report (emission (receiver.bind s.gatesIn) (receiver.bind t.gatesIn)), t) :=
  (run_bind rfl).trans ((run_bind h).trans rfl)

variable {receiver handle : Option String} {environment : EnvironmentRef α}
  {body : List (Script α)} {s entered left : Session α} {e : Environment α}

/-- The run of an environment that can not be entered. -/
theorem run_scope_refused (receiver : Option String) (body : List (Script α)) {f : Fault α}
    (henter : Action.Fails (enter environment handle) s f entered) :
    ∃ emission, (scope receiver handle environment body).run.run s =
      (.step (.error f) emission, entered) := by
  refine ⟨emission ((receiver.bind s.named).bind s.gatesIn)
    ((receiver.bind s.named).bind entered.gatesIn), ?_⟩
  rw [Script.run]
  exact (run_bind rfl).trans (run_watch (run_bind henter))

/-- The run of an environment that is left with the gates `taken` and the fault `outcome`. -/
theorem run_scope {n buffer : Nat} {r held : Sink α} {reports : List (Report α)}
    {taken : List (Gate α)} {failure outcome : Option (Fault α)}
    (hreceiver : (receiver.bind s.named).bind Object.receiver? = some n)
    (henter : Action.Returns (enter environment handle) s (e, buffer) entered)
    (hbody : (runBody body).run entered = ((reports, failure), left))
    (hheld : left.receivers[buffer]? = some held) (hr : left.receivers[n]? = some r)
    (h : e.Exits r held.gates failure taken outcome) :
    ∃ emission, (scope receiver handle environment body).run.run s =
      (.scope reports outcome emission,
        { left with receivers := left.receivers.set n (r.extended taken) }) := by
  refine ⟨emission ((receiver.bind s.named).bind s.gatesIn)
    ((receiver.bind s.named).bind (Session.gatesIn { left with
      receivers := left.receivers.set n (r.extended taken) })), ?_⟩
  rw [Script.run]
  refine (run_bind rfl).trans (run_watch ?_)
  refine (run_bind henter).trans ((run_bind hbody).trans ?_)
  cases failure with
  | some f =>
    cases h
    rw [Sink.extended_nil, Session.set_receiver_self hr]
    rfl
  | none =>
    dsimp only
    rw [hreceiver]
    cases outcome with
    | none => exact run_bind (Action.returns_leave h hheld hr)
    | some f => exact run_bind (Action.fails_leave h hheld hr)

end Script

open Script Environment

/-- **Leaving an environment.** An environment that has been entered, and whose body has run, leaves
everything as the body left it, up to what its receiver takes: the whole transformed sequence if
there is no fault, and otherwise the gates before the one that was refused, if there was one. So it
emits its complete content or nothing unless the receiver takes the first gate but not all. -/
theorem environment_exit {receiver handle : Option String} {environment : EnvironmentRef α}
    {body : List (Script α)} {s entered left : Session α} {n buffer : Nat} {r held : Sink α}
    {e : Environment α} {reports : List (Report α)} {failure : Option (Fault α)}
    (hreceiver : (receiver.bind s.named).bind Object.receiver? = some n)
    (henter : Action.Returns (enter environment handle) s (e, buffer) entered)
    (hbody : (runBody body).run entered = ((reports, failure), left))
    (hheld : left.receivers[buffer]? = some held) (hr : left.receivers[n]? = some r) :
    ∃ taken outcome emission, e.Exits r held.gates failure taken outcome ∧
      (scope receiver handle environment body).run.run s = (.scope reports outcome emission,
        { left with receivers := left.receivers.set n (r.extended taken) }) ∧
      ((∀ gs, e.transform held.gates = .ok gs →
          (∀ g ∈ gs, r.Takes g) ∨ ∀ g ∈ gs.head?, ¬ r.Takes g) →
        outcome = none ∧ e.transform held.gates = .ok taken ∨ outcome ≠ none ∧ taken = []) := by
  obtain ⟨taken, outcome, h⟩ := e.exists_exits r held.gates failure
  obtain ⟨emission, hrun⟩ := run_scope hreceiver henter hbody hheld hr h
  exact ⟨taken, outcome, emission, h, hrun, h.complete_or_nothing⟩

def strayCircuit : Circuit ℝ := ⟨"main", [⟨1, "qb_1"⟩], []⟩

/-- The qubit `b` is not in the circuit `c`. -/
noncomputable def strayStart : Session ℝ :=
  ⟨2, 1, [.circuit strayCircuit], [("c", .receiver 0), ("b", .qubit ⟨0, "b"⟩)], 0, 0⟩

/-- The session inside of an environment with the buffer `u`, which holds the gates `gs`. -/
noncomputable def strayInside (gs : List (Gate ℝ)) : Session ℝ :=
  { strayStart with
    receivers := [.circuit strayCircuit, .list gs]
    names := ("u", .receiver 1) :: strayStart.names }

def strayHadamard : EnvironmentRef ℝ :=
  .conjugation (.one (.build (.text "h") (.slot "c" 0) (.many []) (.integer 0)))

def strayRotation (angle : ℝ) : Script ℝ :=
  .step (some "u") none (.append (.build (.text "rz") (.name "b") (.many []) (.number angle)))

theorem environment_exit_stray : ∃ taken outcome emission,
    (conjugation [.gate (Gate.basis .h ⟨1, "qb_1"⟩)]).Exits (.circuit strayCircuit)
      [Gate.rz (1 / 2) ⟨0, "b"⟩] none taken outcome ∧
    (scope (some "c") (some "u") strayHadamard [strayRotation (1 / 2)]).run.run strayStart =
      (.scope [.step (.ok .done) (some ⟨1, [Gate.rz (1 / 2) ⟨0, "b"⟩]⟩)] outcome emission,
        { strayInside [Gate.rz (1 / 2) ⟨0, "b"⟩] with
          receivers := [(Sink.circuit strayCircuit).extended taken,
            .list [Gate.rz (1 / 2) ⟨0, "b"⟩]] }) := by
  have hreceiver : ((some "c").bind strayStart.named).bind Object.receiver? = some 0 := rfl
  have henter : Action.Returns (enter strayHadamard (some "u")) strayStart
      (conjugation [.gate (Gate.basis .h ⟨1, "qb_1"⟩)], 1) (strayInside []) := rfl
  have hbody : (runBody [strayRotation (1 / 2)]).run (strayInside []) =
      (([.step (.ok .done) (some ⟨1, [Gate.rz (1 / 2) ⟨0, "b"⟩]⟩)], none),
        strayInside [Gate.rz (1 / 2) ⟨0, "b"⟩]) := by
    simp only [runBody, strayRotation, Script.run]
    rfl
  have hheld : (strayInside [Gate.rz (1 / 2) ⟨0, "b"⟩]).receivers[1]? =
      some (.list [Gate.rz (1 / 2) ⟨0, "b"⟩]) := rfl
  have hr : (strayInside [Gate.rz (1 / 2) ⟨0, "b"⟩]).receivers[0]? =
      some (.circuit strayCircuit) := rfl
  obtain ⟨taken, outcome, emission, hexits, hrun, -⟩ :=
    environment_exit hreceiver henter hbody hheld hr
  exact ⟨taken, outcome, emission, hexits, hrun⟩

/-- The Hadamard that was taken before the refusal stays, without its inverse. -/
theorem environment_exit_unbalanced : ∃ report t,
    (scope (some "c") (some "u") strayHadamard [strayRotation (1 / 2)]).run.run strayStart =
      (report, t) ∧
    report.failure? = some (.strangerInGate (Gate.rz (1 / 2) ⟨0, "b"⟩) ⟨0, "b"⟩ "main") ∧
    strayStart.receivers[0]?.map Sink.gates = some [] ∧
    t.receivers[0]?.map Sink.gates = some [Gate.basis .h ⟨1, "qb_1"⟩] := by
  refine ⟨_, _, rfl, ?_, rfl, ?_⟩ <;>
  · simp only [strayRotation, runBody, Script.run]
    rfl

end StateSynthesis
