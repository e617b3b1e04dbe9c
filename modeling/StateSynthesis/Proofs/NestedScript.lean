import StateSynthesis.Proofs.Leaving
import StateSynthesis.Proofs.Nesting
import StateSynthesis.Proofs.Reading

/-!
Running nested environments. A tree is written down as a script whose environments stand on the
buffer around them, with one name per depth, and whose operands are places in the circuit
(`Body.scripts`). Running the steps of a body fills its buffer with what the tree collects, and
touches no other receiver (`Body.simulated`). Main statement: `nested_environments`.
-/
namespace StateSynthesis

variable {α : Type}

open StateSynthesis.Action

/-! ## Trees as scripts -/

def Scope.written (circuit : String) (qs : List Qubit) : Scope α → Script.EnvironmentRef α
  | conjugation vs => .conjugation (.many (vs.map (Gate.written circuit qs)))
  | inversion => .inversion
  | control cs => .control (.many (cs.map (Qubit.written circuit qs)))

/-- The steps of a body whose buffer has the name of its depth; the circuit has that of depth
zero. -/
def Body.scripts (name : Nat → String) (qs : List Qubit) : Body α → Nat → List (Script α)
  | done, _ => []
  | append g rest, depth =>
    .step (some (name depth)) none (.append (g.written (name 0) qs)) :: rest.scripts name qs depth
  | raise f rest, depth => .step none none (.fail f) :: rest.scripts name qs depth
  | nest e inner rest, depth =>
    .scope (some (name depth)) (some (name (depth + 1))) (e.written (name 0) qs)
      (inner.scripts name qs (depth + 1)) :: rest.scripts name qs depth

/-- The session inside of an environment whose buffer has the given name. -/
def Session.opened (handle : String) (s : Session α) : Session α :=
  { s with
    receivers := s.receivers ++ [.list []]
    names := (handle, .receiver s.receivers.length) :: s.names }

theorem Session.length_opened (handle : String) (s : Session α) :
    s.receivers.length < (s.opened handle).receivers.length := by
  rw [opened, List.length_append]
  exact Nat.lt_succ_self _

theorem Session.Shows.opened {s : Session α} {circuit handle : String} {c : Circuit α}
    (h : s.Shows circuit c) (hne : circuit ≠ handle) : (s.opened handle).Shows circuit c := by
  obtain ⟨m, hm, hc⟩ := h
  have hlt : m < s.receivers.length := (List.getElem?_eq_some_iff.mp hc).1
  exact ⟨m, (s.named_give_of_ne _ hne).trans hm, (List.getElem?_append_left hlt).trans hc⟩

section Entering

variable [Scalar α] {s : Session α} {circuit : String} {c : Circuit α}

theorem mapM_map_gate (vs : List (Gate α)) : (vs.mapM fun v => v.remake.map Datum.gate) =
    (vs.mapM Gate.remake).map (List.map Datum.gate) := by
  induction vs with
  | nil => rfl
  | cons v vs ih =>
    rw [List.mapM_cons, List.mapM_cons, ih]
    cases v.remake with
    | error f => rfl
    | ok w => cases vs.mapM Gate.remake <;> rfl

theorem reads_scope (h : s.Shows circuit c) {e : Scope α} (he : e.Within c.qubits) :
    Reads (Script.EnvironmentRef.resolve (e.written circuit c.qubits)) s e.enter := by
  cases e with
  | conjugation vs =>
    have heach : Reads (vs.mapM fun v => Script.GateRef.resolve (v.written circuit c.qubits)) s
        (vs.mapM fun v => v.remake.map Datum.gate) := .mapM fun v hv =>
      reads_gate h (he v hv).qubits_mem
    rw [mapM_map_gate] at heach
    rw [Scope.written, Script.EnvironmentRef.resolve, Script.GateRefs.resolve, List.mapM_map]
    have hentered := heach.bind (f := fun ds => pure (Environment.conjugation ds))
      (k := fun ds => .ok (.conjugation ds)) fun ds => returns_pure _ s
    refine hentered.trans ?_
    rw [Scope.enter]
    cases vs.mapM Gate.remake <;> rfl
  | inversion => exact returns_pure _ s
  | control cs => exact ((reads_qubits h he).returns rfl).bind (returns_pure _ s)

end Entering

/-! ## Sessions along a run -/

namespace Session

/-- What is kept by the steps of a body with the buffer `n` at some depth: all other receivers, and
what the names up to its depth stand for. -/
structure Follows (name : Nat → String) (depth n : Nat) (s t : Session α) : Prop where
  length_le : s.receivers.length ≤ t.receivers.length
  receivers_eq : ∀ k < s.receivers.length, k ≠ n → t.receivers[k]? = s.receivers[k]?
  named_eq : ∀ k ≤ depth, t.named (name k) = s.named (name k)

namespace Follows

variable {name : Nat → String} {depth n : Nat} {s t u : Session α}

theorem refl (s : Session α) : Follows name depth n s s :=
  ⟨le_rfl, fun _ _ _ => rfl, fun _ _ => rfl⟩

theorem trans (h : Follows name depth n s t) (h' : Follows name depth n t u) :
    Follows name depth n s u where
  length_le := h.length_le.trans h'.length_le
  receivers_eq k hk hn :=
    (h'.receivers_eq k (hk.trans_le h.length_le) hn).trans (h.receivers_eq k hk hn)
  named_eq k hk := (h'.named_eq k hk).trans (h.named_eq k hk)

theorem set (s : Session α) (r : Sink α) :
    Follows name depth n s { s with receivers := s.receivers.set n r } where
  length_le := (List.length_set ..).ge
  receivers_eq _ _ hn := List.getElem?_set_ne hn.symm
  named_eq _ _ := rfl

/-- Names of one depth are different from those of another. -/
theorem of_opened (hname : Function.Injective name)
    (h : Follows name (depth + 1) s.receivers.length (s.opened (name (depth + 1))) t) :
    Follows name depth n s t where
  length_le := (s.length_opened _).le.trans h.length_le
  receivers_eq k hk _ := by
    rw [h.receivers_eq k (hk.trans (s.length_opened _)) hk.ne]
    exact List.getElem?_append_left hk
  named_eq k hk := by
    have hne : name k ≠ name (depth + 1) := fun he => by
      have := hname he
      omega
    rw [h.named_eq k (by omega)]
    exact named_give_of_ne s _ hne

/-- The buffer is none of the circuits. -/
theorem shows {circuit : Circuit α} {gs : List (Gate α)} (h : Follows name depth n s t)
    (hr : s.receivers[n]? = some (.list gs)) (hc : s.Shows (name 0) circuit) :
    t.Shows (name 0) circuit := by
  obtain ⟨m, hm, hc⟩ := hc
  have hlt : m < s.receivers.length := (List.getElem?_eq_some_iff.mp hc).1
  have hne : m ≠ n := by
    rintro rfl
    simp [hr] at hc
  exact ⟨m, (h.named_eq 0 (Nat.zero_le _)).trans hm, (h.receivers_eq m hlt hne).trans hc⟩

end Follows

end Session

/-! ## Runs of single steps -/

variable [Scalar α]

namespace Script

variable {s t u : Session α} {handle : Option String} {o : Option (Object α)} {c : Command α}

theorem run_step_of_returns (receiver : Option String) {reply : Reply α}
    (ho : receiver.bind s.named = o) (h : Returns (c.answer o handle) s reply t) :
    ∃ report, (step receiver handle c).run.run s = (report, t) ∧ report.failure? = none := by
  refine ⟨Report.ofOutcome (.ok reply) (emission (o.bind s.gatesIn) (o.bind t.gatesIn)), ?_, rfl⟩
  rw [Script.run]
  refine (run_bind (b := o) (t := s) (by rw [← ho]; rfl)).trans (run_watch ?_)
  rw [StateT.run_map, h]
  rfl

theorem run_step_of_fails (receiver : Option String) {f : Fault α}
    (ho : receiver.bind s.named = o) (h : Fails (c.answer o handle) s f t) :
    ∃ report, (step receiver handle c).run.run s = (report, t) ∧ report.failure? = some f := by
  refine ⟨Report.ofOutcome (.error f) (emission (o.bind s.gatesIn) (o.bind t.gatesIn)), ?_, rfl⟩
  rw [Script.run]
  refine (run_bind (b := o) (t := s) (by rw [← ho]; rfl)).trans (run_watch ?_)
  rw [StateT.run_map, h]
  rfl

theorem runBody_cons {first : Script α} {rest : List (Script α)} {report : Report α}
    {reports : List (Report α)} {failure : Option (Fault α)}
    (h : first.run.run s = (report, t)) (hf : report.failure? = none)
    (hrest : (runBody rest).run t = ((reports, failure), u)) :
    (runBody (first :: rest)).run s = ((report :: reports, failure), u) := by
  rw [runBody]
  refine (run_bind h).trans ?_
  rw [hf]
  exact (run_bind hrest).trans rfl

theorem runBody_cons_failed {first : Script α} {rest : List (Script α)} {report : Report α}
    {f : Fault α} (h : first.run.run s = (report, t)) (hf : report.failure? = some f) :
    (runBody (first :: rest)).run s = (([report], some f), t) := by
  rw [runBody]
  refine (run_bind h).trans ?_
  rw [hf]
  rfl

variable {gate : GateRef α} {n : Nat} {r : Sink α} {made : Except (Fault α) (Gate α)}

theorem returns_append {g : Gate α} (hr : s.receivers[n]? = some r) (hg : r.Takes g)
    (h : Reads gate.resolve s (made.map Datum.gate)) (hmade : made = .ok g) :
    Returns (Command.answer (some (.receiver n)) none (.append gate)) s .done
      { s with receivers := s.receivers.set n (r.extended [g]) } := by
  subst hmade
  have htaken : r.appendDatum (.gate g) = .ok (r.extended [g]) := Sink.append_of_takes hg
  refine Returns.bind (b := .done)
    (t := { s with receivers := s.receivers.set n (r.extended [g]) }) ?_ (returns_pure _ _)
  refine (returns_pure n s).bind ((h.returns rfl).bind ((returns_receiver hr).bind ?_))
  exact (returns_ok htaken s).bind ((returns_putReceiver n _ s).bind (returns_pure _ _))

theorem fails_append {f : Fault α} (h : Reads gate.resolve s (made.map Datum.gate))
    (hmade : made = .error f) :
    Fails (Command.answer (some (.receiver n)) none (.append gate)) s f s := by
  subst hmade
  exact ((returns_pure n s).bind_fails ((h.fails rfl).bind _)).bind _

theorem returns_enter {e : EnvironmentRef α} {environment : Environment α} {buffer : String}
    (h : Returns e.resolve s environment s) :
    Returns (enter e (some buffer)) s (environment, s.receivers.length) (s.opened buffer) :=
  h.bind ((returns_createReceiver _ s).bind (rfl : Returns (Action.give (some buffer)
    (.receiver s.receivers.length) >>= fun _ => pure (environment, s.receivers.length)) _ _ _))

theorem fails_enter {e : EnvironmentRef α} {f : Fault α} (handle : Option String)
    (h : Fails e.resolve s f s) : Fails (enter e handle) s f s := h.bind _

end Script

/-! ## Runs of trees -/

/-- The fault of a part that collects gates. -/
def faultOf {β : Type} : Except (Fault α) β → Option (Fault α)
  | .ok _ => none
  | .error f => some f

/-- The gates of a part that is handed over as a whole or not at all. -/
def gatesOf : Except (Fault α) (List (Gate α)) → List (Gate α)
  | .ok gs => gs
  | .error _ => []

open Script

/-- From the session `s`, where the buffer `n` holds the gates `gs`, to the session `t` the buffer
has gained the gates of the part, and there is a fault if the part has one. -/
structure Adds (name : Nat → String) (depth n : Nat) (gs : List (Gate α)) (s : Session α)
    (part : Except (Fault α) (List (Gate α))) (failure : Option (Fault α)) (t : Session α) :
    Prop where
  failure_eq : failure = faultOf part
  follows : s.Follows name depth n t
  gained : ∀ hs, part = .ok hs → t.receivers[n]? = some (.list (gs ++ hs))

/-- Run on its buffer, at any depth, the body adds what it collects. -/
def Body.Simulated (name : Nat → String) (c : Circuit α) (b : Body α) : Prop :=
  ∀ ⦃depth n : Nat⦄ ⦃gs : List (Gate α)⦄ ⦃s : Session α⦄, s.Shows (name 0) c →
    s.named (name depth) = some (.receiver n) → s.receivers[n]? = some (.list gs) →
    ∃ reports failure t,
      (runBody (b.scripts name c.qubits depth)).run s = ((reports, failure), t) ∧
      Adds name depth n gs s b.collect failure t

namespace Scope

variable {name : Nat → String} {c : Circuit α} {e : Scope α} {r : Sink α}

/-- How an environment is left around the gates `held` of a body. -/
theorem exits_around {environment : Environment α} (henter : e.enter = .ok environment)
    {inner : Except (Fault α) (List (Gate α))} {held : List (Gate α)}
    (hheld : ∀ gs, inner = .ok gs → held = gs)
    (htakes : ∀ gs, e.around inner = .ok gs → ∀ g ∈ gs, r.Takes g) :
    environment.Exits r held (faultOf inner) (gatesOf (e.around inner))
      (faultOf (e.around inner)) := by
  cases inner with
  | error f =>
    have haround : e.around (.error f) = .error f := by rw [around, henter]; rfl
    rw [haround]
    exact .failed f
  | ok gs =>
    have haround : e.around (.ok gs) = environment.transform gs := by rw [around, henter]; rfl
    rw [haround] at htakes ⊢
    rw [hheld gs rfl]
    cases ht : environment.transform gs with
    | error f => exact .untransformed ht
    | ok ts => exact .complete ht (htakes ts ht)

/-- Run on a receiver that takes its gates, an environment hands over what it makes of those that
its body collects, and nothing if it fails. -/
theorem simulated (hname : Function.Injective name) {inner : Body α} (he : e.Within c.qubits)
    (hinner : inner.Simulated name c) {depth n : Nat} {s : Session α} (hc : s.Shows (name 0) c)
    (hn : s.named (name depth) = some (.receiver n)) (hr : s.receivers[n]? = some r)
    (htakes : ∀ gs, e.around inner.collect = .ok gs → ∀ g ∈ gs, r.Takes g) :
    ∃ report t, (scope (some (name depth)) (some (name (depth + 1)))
        (e.written (name 0) c.qubits) (inner.scripts name c.qubits (depth + 1))).run.run s =
        (report, t) ∧
      report.failure? = faultOf (e.around inner.collect) ∧ s.Follows name depth n t ∧
      t.receivers[n]? = some (r.extended (gatesOf (e.around inner.collect))) := by
  have hentered := reads_scope hc he
  cases henter : e.enter with
  | error f =>
    have haround : e.around inner.collect = .error f := by rw [around, henter]; rfl
    obtain ⟨emission, hrun⟩ := run_scope_refused (some (name depth))
      (inner.scripts name c.qubits (depth + 1))
      (fails_enter (some (name (depth + 1))) (hentered.fails henter))
    refine ⟨_, _, hrun, ?_, .refl s, ?_⟩
    · rw [haround]
      rfl
    · rw [haround, gatesOf, Sink.extended_nil, hr]
  | ok environment =>
    have hlt : n < s.receivers.length := (List.getElem?_eq_some_iff.mp hr).1
    have hbuffer : (s.opened (name (depth + 1))).receivers[s.receivers.length]? =
        some (.list []) := List.getElem?_concat_length
    obtain ⟨reports, _, left, hbody, ⟨rfl, hfollows, hfilled⟩⟩ :=
      hinner (hc.opened (hname.ne (Nat.succ_ne_zero depth).symm)) (s.named_give _ _) hbuffer
    have hleft := hfollows.of_opened (n := n) hname
    have hlen : s.receivers.length < left.receivers.length :=
      (s.length_opened _).trans_le hfollows.length_le
    obtain ⟨held, hheld⟩ : ∃ held, left.receivers[s.receivers.length]? = some held :=
      ⟨_, List.getElem?_eq_getElem hlen⟩
    have hgates : ∀ gs, inner.collect = .ok gs → held.gates = gs := by
      intro gs hgs
      cases hheld.symm.trans (hfilled gs hgs)
      rfl
    -- The buffer of the body is new, so the receiver outside is none that the body wrote to.
    have hrleft : left.receivers[n]? = some r :=
      (hfollows.receivers_eq n (hlt.trans (Session.length_opened ..)) hlt.ne).trans
        ((List.getElem?_append_left hlt).trans hr)
    have hreceiver : ((some (name depth)).bind s.named).bind Object.receiver? = some n := by
      rw [Option.bind_some, hn]
      rfl
    obtain ⟨emission, hrun⟩ := run_scope hreceiver (returns_enter (hentered.returns henter)) hbody
      hheld hrleft (exits_around henter hgates htakes)
    refine ⟨_, _, hrun, rfl, hleft.trans (.set left _), ?_⟩
    exact List.getElem?_set_self (hlt.trans hlen)

end Scope

namespace Body

variable {name : Nat → String} {c : Circuit α}

/-- A step in front of a body. -/
theorem Simulated.cons {rest : Body α} (hrest : rest.Simulated name c) {first : Script α}
    {report : Report α} {part : Except (Fault α) (List (Gate α))} {depth n : Nat}
    {gs : List (Gate α)} {s t : Session α} (hc : s.Shows (name 0) c)
    (hn : s.named (name depth) = some (.receiver n)) (hr : s.receivers[n]? = some (.list gs))
    (hrun : first.run.run s = (report, t)) (h : Adds name depth n gs s part report.failure? t) :
    ∃ reports failure u,
      (runBody (first :: rest.scripts name c.qubits depth)).run s = ((reports, failure), u) ∧
      Adds name depth n gs s (do
        let hs ← part
        return hs ++ (← rest.collect)) failure u := by
  cases part with
  | error f =>
    exact ⟨_, _, t, runBody_cons_failed hrun h.failure_eq, rfl, h.follows,
      fun hs hhs => by cases hhs⟩
  | ok hs =>
    obtain ⟨reports, failure, u, hbody, hadds⟩ := hrest (h.follows.shows hr hc)
      ((h.follows.named_eq depth le_rfl).trans hn) (h.gained hs rfl)
    refine ⟨_, _, u, runBody_cons hrun h.failure_eq hbody, ?_, h.follows.trans hadds.follows, ?_⟩
    · rw [hadds.failure_eq]
      cases rest.collect <;> rfl
    · intro ks hks
      cases hcollect : rest.collect with
      | error f =>
        rw [hcollect] at hks
        cases hks
      | ok rs =>
        rw [hcollect] at hks
        cases hks
        rw [hadds.gained rs hcollect, List.append_assoc]

theorem collect_append (g : Gate α) (rest : Body α) : (append g rest).collect = (do
    let hs ← g.remake.map ([·])
    return hs ++ (← rest.collect)) := by
  rw [collect]
  cases g.remake <;> rfl

theorem simulated (hname : Function.Injective name) {b : Body α} (hw : b.Within c.qubits) :
    b.Simulated name c := by
  -- `Simulated` is about all depths and sessions: an inner body starts one level deeper, with its
  -- own buffer.
  induction b with
  | done =>
    intro depth n gs s hc hn hr
    refine ⟨[], none, s, rfl, rfl, .refl s, fun hs hhs => ?_⟩
    cases hhs
    rw [List.append_nil, hr]
  | append g rest ih =>
    intro depth n gs s hc hn hr
    have hgate := reads_gate hc hw.1.qubits_mem
    rw [collect_append]
    cases hmade : g.remake with
    | error f =>
      obtain ⟨report, hrun, hf⟩ := run_step_of_fails (some (name depth)) hn
        (fails_append hgate hmade)
      exact (ih hw.2).cons hc hn hr hrun ⟨hf, .refl s, fun hs hhs => by cases hhs⟩
    | ok h =>
      obtain ⟨report, hrun, hf⟩ := run_step_of_returns (some (name depth)) hn
        (returns_append hr (Sink.takes_list gs h) hgate hmade)
      refine (ih hw.2).cons hc hn hr hrun ⟨hf, .set s _, fun hs hhs => ?_⟩
      cases hhs
      exact List.getElem?_set_self (List.getElem?_eq_some_iff.mp hr).1
  | raise f rest ih =>
    intro depth n gs s hc hn hr
    have hfails : Fails (Command.answer none none (.fail f)) s f s := (fails_throw f s).bind _
    obtain ⟨report, hrun, hf⟩ := run_step_of_fails none rfl hfails
    have hadds : Adds name depth n gs s (.error f) report.failure? s :=
      ⟨hf, .refl s, fun hs hhs => by cases hhs⟩
    exact (ih hw).cons hc hn hr hrun hadds
  | nest e inner rest ihi ihr =>
    intro depth n gs s hc hn hr
    obtain ⟨report, t, hrun, hf, hfollows, hgained⟩ :=
      e.simulated hname hw.1 (ihi hw.2.1) hc hn hr fun _ _ g _ => Sink.takes_list gs g
    refine (ihr hw.2.2).cons hc hn hr hrun ⟨hf, hfollows, fun hs hhs => ?_⟩
    rw [hgained, hhs]
    rfl

end Body

/-! ## What reaches the circuit outside -/

open Matrix

/-- The matrix is unitary, and simulating the gates multiplies the amplitudes by it. -/
structure Sequence.Implements (qs : List Qubit) (gs : List (Gate ℝ)) (u : Operator qs) : Prop where
  unitary : u ∈ Matrix.unitaryGroup (Bits qs) ℂ
  simulated : ∀ s : State ℝ (State.axes qs), ∃ t, applyTo gs s = .ok t ∧
    State.amplitudes t = u *ᵥ State.amplitudes s

theorem Sequence.On.implements {qs : List Qubit} {gs : List (Gate ℝ)} (h : On qs gs)
    (hn : qs.Nodup) : Implements qs gs (matrix qs gs) :=
  ⟨matrix_mem_unitaryGroup h, applyTo_amplitudes hn h⟩

/-- **Nested environments.** A tree of environments, run on a circuit that has all of its qubits,
adds gates to the circuit that implement the meaning of the tree, or fails and adds none. It fails
if a step raises, at any depth, and otherwise only where a control is used in its own scope. -/
theorem nested_environments {name : Nat → String} (hname : Function.Injective name)
    {s : Session ℝ} {n : Nat} {c : Circuit ℝ} (hn : s.named (name 0) = some (.receiver n))
    (hc : s.receivers[n]? = some (.circuit c)) (hq : c.qubits.Nodup) {e : Scope ℝ} {body : Body ℝ}
    (he : e.Within c.qubits) (hb : body.Within c.qubits) :
    ∃ report t gs, (scope (some (name 0)) (some (name 1)) (e.written (name 0) c.qubits)
        (body.scripts name c.qubits 1)).run.run s = (report, t) ∧
      t.receivers[n]? = some (.circuit { c with gates := c.gates ++ gs }) ∧
      (report.failure? = none →
        Sequence.Implements c.qubits gs (e.meaning c.qubits (body.meaning c.qubits))) ∧
      (report.failure? ≠ none → gs = []) ∧
      (e.Raises ∨ body.Raises → report.failure? ≠ none) ∧
      (¬ e.Raises → ¬ body.Raises → e.ApartFrom body.qubits → body.Apart →
        report.failure? = none) := by
  have hw : (Body.nest e body .done).Within c.qubits := ⟨he, hb, trivial⟩
  have htree : ∀ gs, e.around body.collect = .ok gs →
      (Body.nest e body .done).collect = .ok gs := by
    intro gs hgs
    rw [Body.collect, hgs]
    exact congrArg Except.ok (List.append_nil gs)
  have htakes : ∀ gs, e.around body.collect = .ok gs → ∀ g ∈ gs, (Sink.circuit c).Takes g :=
    fun gs hgs => (Body.collect_on hw (htree gs hgs)).takes (by simp [Sink.circuit?])
  obtain ⟨report, t, hrun, hf, -, hgained⟩ :=
    e.simulated hname he (Body.simulated hname hb) ⟨n, hn, hc⟩ hn hc htakes
  refine ⟨report, t, _, hrun, hgained, ?_⟩
  rw [hf]
  cases haround : e.around body.collect with
  | error f =>
    refine ⟨by simp [faultOf], fun _ => rfl, by simp [faultOf], fun hre hrb hae hab => ?_⟩
    obtain ⟨gs, hgs⟩ := Body.collect_of_apart hw ⟨hae, hab, trivial⟩
      (fun hr => hr.elim hre fun hr => hr.elim hrb id)
    rw [Body.collect, haround] at hgs
    cases hgs
  | ok gs =>
    have hcollect := htree gs haround
    refine ⟨fun _ => ?_, by simp [faultOf], fun hr => ?_, fun _ _ _ _ => rfl⟩
    · have hmeaning : Sequence.matrix c.qubits gs =
          e.meaning c.qubits (body.meaning c.qubits) := by
        rw [Body.collect_meaning hw hcollect, Body.meaning, Body.meaning, one_mul]
      exact hmeaning ▸ (Body.collect_on hw hcollect).implements hq
    · exact absurd (hr.imp_right Or.inl) (Body.not_raises_of_collect hcollect)

def nestedNames (depth : Nat) : String := "u" ++ toString depth

theorem nestedNames_injective : Function.Injective nestedNames := by
  intro j k h
  rw [nestedNames, nestedNames, String.append_right_inj, Nat.toString_eq_repr,
    Nat.toString_eq_repr] at h
  exact Nat.repr_injective h

def nestedCircuit : Circuit ℝ := ⟨"main", [⟨0, "a"⟩, ⟨1, "b"⟩], []⟩

noncomputable def nestedStart : Session ℝ :=
  ⟨2, 0, [.circuit nestedCircuit], [("u0", .receiver 0)], 0, 0⟩

/-- An inversion inside of a conjugation. -/
noncomputable def nestedBody (angle : ℝ) : Body ℝ :=
  .nest (.conjugation [Gate.basis .h ⟨1, "b"⟩])
    (.nest .inversion (.append (Gate.rz angle ⟨1, "b"⟩) .done) .done) .done

theorem nested_environments_controlled : ∃ report t gs,
    (scope (some "u0") (some "u1") ((Scope.control [⟨0, "a"⟩]).written "u0" nestedCircuit.qubits)
        ((nestedBody (1 / 2)).scripts nestedNames nestedCircuit.qubits 1)).run.run nestedStart =
      (report, t) ∧
    t.receivers[0]? = some (.circuit { nestedCircuit with gates := gs }) ∧
    report.failure? = none ∧ Sequence.Implements nestedCircuit.qubits gs
      (Operator.controlledBy [⟨0, "a"⟩] ((nestedBody (1 / 2)).meaning nestedCircuit.qubits)) := by
  have hcontrol : (Scope.control (α := ℝ) [⟨0, "a"⟩]).Within nestedCircuit.qubits := by
    simp [Scope.Within, nestedCircuit]
  have hbody : (nestedBody (1 / 2)).Within nestedCircuit.qubits := by
    refine ⟨List.forall_mem_singleton.mpr ⟨?_, ?_⟩, ⟨trivial, ⟨⟨?_, ?_⟩, trivial⟩, trivial⟩,
      trivial⟩
    · simp [Gate.basis]
    · simp [Gate.qubits, Gate.basis, nestedCircuit]
    · simp [Gate.rz]
    · simp [Gate.qubits, Gate.rz, nestedCircuit]
  have hfree : (Scope.control (α := ℝ) [⟨0, "a"⟩]).ApartFrom (nestedBody (1 / 2)).qubits := by
    simp [Scope.ApartFrom, nestedBody, Body.qubits, Scope.qubits, Gate.qubits, Gate.basis, Gate.rz]
  have hraises : ¬ (nestedBody (1 / 2)).Raises := by
    rintro (⟨v, hv, hn⟩ | (hr | hn | hr) | hr)
    · rw [List.mem_singleton.mp hv] at hn
      exact hn _ rfl
    · exact hr
    · exact hn.elim (fun hn => hn _ rfl) id
    · exact hr
    · exact hr
  obtain ⟨report, t, gs, hrun, hgained, himplements, -, -, hreturns⟩ :=
    nested_environments (s := nestedStart) (c := nestedCircuit)
      nestedNames_injective rfl rfl (by decide) hcontrol hbody
  have hnone : report.failure? = none :=
    hreturns id hraises hfree ⟨trivial, ⟨trivial, trivial, trivial⟩, trivial⟩
  exact ⟨report, t, gs, hrun, hgained, hnone, himplements hnone⟩

end StateSynthesis
