import StateSynthesis.Export
import StateSynthesis.Proofs.Keeping
import StateSynthesis.Proofs.Leaving
import StateSynthesis.Statevector.Simulation

/-!
Sessions that come up when scripts are run. Operands of a sound session are sound, each command
keeps the session sound (`keeps_perform`), and so does each step and each environment, also one that
fails (`Script.maintains_run`). The labels that scripts choose for qubits stay known
(`Session.ReachedWith`). So every circuit is well formed at any time, its qubits are different ones,
and whoever looks up a qubit of one of its gates finds it. Main statement:
`reached_circuit_consistent`.
-/
namespace StateSynthesis

open StateSynthesis.Action

variable {α : Type} [Scalar α]

namespace Script

/-! ## Operands -/

section Operands

variable {L : String → Prop} {s : Session α} {ids : List String} (hs : s.Sound L ids)

include hs

theorem finds_ref (r : Ref α) : Finds r.resolve s (Datum.Sound (Qubit.Known ids)) := by
  cases r with
  | value l => exact finds_pure l.datum_sound
  | name n =>
    refine (finds_named hs (some n)).bind fun o ho => ?_
    cases o with
    | none => exact finds_pure .absent
    | some o => exact finds_datum hs (ho o rfl)
  | slot c i =>
    refine (finds_named hs (some c)).bind fun o ho => (finds_qubitsOf hs ho).bind fun qs hqs => ?_
    split
    · rename_i q hq
      refine finds_pure (.qubit (hqs q ?_))
      rcases Qubit.at?_eq_some_iff.mp hq with ⟨_, -, h⟩ | ⟨_, -, h⟩
      · exact List.mem_of_getElem? h
      · exact List.mem_reverse.mp (List.mem_of_getElem? h)
    · exact finds_throw _

theorem finds_refs (r : Refs α) : Finds r.resolve s (Datum.Sound (Qubit.Known ids)) := by
  cases r with
  | one r => exact finds_ref hs r
  | many rs => exact (finds_mapM fun r _ => finds_ref hs r).map fun ds hds => .list hds

theorem finds_gateRef (r : GateRef α) : Finds r.resolve s (Datum.Sound (Qubit.Known ids)) := by
  cases r with
  | name n => exact finds_ref hs (.name n)
  | value l => exact finds_pure l.datum_sound
  | build kind target controls angle =>
    refine (finds_ref hs target).bind fun t ht => (finds_refs hs controls).bind fun cs hcs => ?_
    refine (finds_ok (P := fun _ => True) fun _ _ => trivial).bind fun a _ => ?_
    exact (finds_ok (Gate.yields_ofData ht hcs)).bind fun g hg => finds_pure (.gate hg)
  | construct kind arguments =>
    refine (finds_mapM fun r _ => finds_refs hs r).bind fun ds hds => ?_
    exact (finds_ok (Gate.yields_ofArguments hds)).bind fun g hg => finds_pure (.gate hg)
  | controlledNot control target =>
    refine (finds_ref hs control).bind fun p hp => (finds_ref hs target).bind fun q hq => ?_
    have hoperands : ∀ d ∈ [q, .list [p]], d.Sound (Qubit.Known ids) :=
      List.forall_mem_cons.mpr ⟨hq, List.forall_mem_singleton.mpr
        (.list (List.forall_mem_singleton.mpr hp))⟩
    exact (finds_ok (Gate.yields_ofArguments hoperands)).bind fun g hg => finds_pure (.gate hg)

theorem finds_gate (r : GateRef α) : Finds r.resolveGate s (Gate.Sound (Qubit.Known ids)) :=
  (finds_gateRef hs r).bind fun _ hd => finds_ok (Gate.yields_ofDatum hd)

theorem finds_gateRefs (r : GateRefs α) :
    Finds r.resolve s (∀ d ∈ ·, d.Sound (Qubit.Known ids)) := by
  cases r with
  | many gs => exact finds_mapM fun g _ => finds_gateRef hs g
  | one g =>
    refine (finds_gateRef hs g).bind fun d hd => ?_
    split
    · exact finds_pure (List.forall_mem_singleton.mpr hd)
    · exact finds_ok hd.yields_items

theorem finds_derivation (n : Nat) (how : DerivationRef α) :
    Finds (how.resolve n) s (Derivation.Sound (Qubit.Known ids)) := by
  cases how with
  | control controls =>
    exact (finds_circuit n).bind fun _ _ => (finds_refs hs controls).bind fun d hd => finds_pure hd
  | _ => exact finds_pure trivial

theorem finds_environment (e : EnvironmentRef α) :
    Finds e.resolve s (Environment.Sound (Qubit.Known ids)) := by
  cases e with
  | conjugation gates => exact (finds_gateRefs hs gates).bind fun ds hds => finds_pure hds
  | control controls =>
    refine (finds_refs hs controls).bind fun d hd => finds_pure ?_
    show ∀ e ∈ d.members?.getD [d], e.Sound (Qubit.Known ids)
    cases hm : d.members? with
    | none => exact List.forall_mem_singleton.mpr hd
    | some ds => exact hd.members? hm
  | _ => exact finds_pure trivial

theorem finds_wiring (pairs : List (Ref α × Ref α)) :
    Finds (resolveWiring pairs) s fun _ => True := by
  refine (finds_mapM (P := fun _ => True) fun p _ => ?_).imp fun _ _ => trivial
  exact (finds_ref hs p.1).bind fun d _ => (finds_ref hs p.2).bind fun e _ =>
    finds_guard (finds_pure trivial)

end Operands

/-! ## Commands -/

/-- What the reply names is sound. -/
def Reply.Sound (P : Qubit → Prop) (r : Reply α) : Prop := ∀ o ∈ r.object?, o.Sound P

section Commands

variable {L : String → Prop} {s : Session α} {ids : List String} {P : Qubit → Prop}

theorem Reply.sound_of_silent {r : Reply α} (h : r.object? = none) : r.Sound P := by
  simp [Reply.Sound, h]

theorem finds_replyMade (n : Nat) (warned : Bool) :
    Finds (replyMade n warned) s (Reply.Sound P) := by
  refine (finds_receiver n).bind fun r _ => finds_pure ?_
  rintro _ ⟨⟩
  trivial

theorem finds_replyPrepared (hs : s.Sound L ids) (given : Option (Object α))
    (result : Option Nat × Bool) : Finds (replyPrepared given result) s (Reply.Sound P) := by
  unfold replyPrepared
  split
  · exact finds_replyMade _ _
  · exact (finds_frame hs _).bind fun c _ => finds_pure (Reply.sound_of_silent rfl)

theorem finds_circuitNamed (hs : s.Sound L ids) (name : Option String) :
    Finds (circuitNamed name) s fun _ => True :=
  (finds_named hs name).bind fun o _ => (finds_needReceiver o).bind fun n _ =>
    (finds_circuit n).imp fun _ _ => trivial

/-- What a command computes from what it has looked at, and only shows. -/
theorem finds_shown {β : Type} (e : Except (Fault α) β) {f : β → Reply α}
    (hf : ∀ b, (f b).object? = none) : Finds (liftM e >>= fun b => pure (f b)) s (Reply.Sound P) :=
  (finds_ok (P := fun _ => True) fun _ _ => trivial).bind fun b _ =>
    finds_pure (Reply.sound_of_silent (hf b))

end Commands

/-- Commands that show something and change nothing. -/
def Command.isQuestion : Command α → Bool
  | sameQubits .. | countDistinct _ | sumQubits .. | showGate _ | invertGate _ | controlGate ..
  | gateMatrix _ | sameGates .. | invertGates _ | controlGates .. | baseGate _ | describe _
  | census _ | statevector _ | unitary _ | compare .. | exported _ | fail _ => true
  | _ => false

/-- The labels that are chosen for qubits. -/
def Command.labels : Command α → List String
  | createQubit (.text label) => [label]
  | _ => []

section Commands

variable {L : String → Prop} {s : Session α} {ids : List String} (hs : s.Sound L ids)
  (receiver : Option (Object α)) {c : Command α}

include hs

theorem finds_perform (hc : c.isQuestion = true) :
    Finds (c.perform receiver) s (Reply.Sound (Qubit.Known ids)) := by
  have hshown {β : Type} {a : Action α β} {Q : β → Prop} (ha : Finds a s Q) {f : β → Reply α}
      (hf : ∀ b, (f b).object? = none) :
      Finds (a >>= fun b => pure (f b)) s (Reply.Sound (Qubit.Known ids)) :=
    ha.bind fun b _ => finds_pure (Reply.sound_of_silent (hf b))
  have hgate {g : Gate α} (hg : g.Sound (Qubit.Known ids)) :
      (Reply.gate g).Sound (Qubit.Known ids) := by
    rintro _ ⟨⟩
    exact hg
  have hgates (gates : List (GateRef α)) :
      Finds (gates.mapM GateRef.resolve) s (∀ d ∈ ·, d.Sound (Qubit.Known ids)) :=
    finds_mapM fun g _ => finds_gateRef hs g
  cases c with
  | sameQubits a b =>
    exact (finds_ref hs a).bind fun d _ => hshown (finds_ref hs b) fun _ => rfl
  | countDistinct qubits => exact (finds_refs hs qubits).bind fun d _ => finds_shown _ fun _ => rfl
  | sumQubits a b =>
    exact (finds_refs hs a).bind fun d _ => (finds_refs hs b).bind fun e _ =>
      finds_shown _ fun _ => rfl
  | showGate gate => exact (finds_gate hs gate).map fun g hg => hgate hg
  | invertGate gate => exact (finds_gate hs gate).bind fun g hg => finds_pure (hgate hg.inverse)
  | controlGate gate controls =>
    refine (finds_gate hs gate).bind fun g hg => (finds_refs hs controls).bind fun d hd => ?_
    split
    · rename_i cs hcs
      have hcs := Datum.filterMap_qubit?_sound (hd.qubitItems? hcs)
      exact (finds_ok (Gate.yields_controlBy hcs hg)).bind fun g hg => finds_pure (hgate hg)
    · exact finds_throw _
  | gateMatrix gate => exact hshown (finds_gate hs gate) fun _ => rfl
  | sameGates a b =>
    exact (finds_gateRef hs a).bind fun d _ => hshown (finds_gateRef hs b) fun _ => rfl
  | invertGates gates => exact (hgates gates).bind fun ds _ => finds_shown _ fun _ => rfl
  | controlGates gates controls =>
    exact (hgates gates).bind fun ds _ => (finds_refs hs controls).bind fun d _ =>
      finds_shown _ fun _ => rfl
  | baseGate gate =>
    exact (finds_gate hs gate).bind fun g _ =>
      finds_shown _ (f := fun p : BaseGate × List α => .base p.1 p.2) fun _ => rfl
  | describe source =>
    exact (finds_named hs source).bind fun o _ => (finds_needReceiver o).bind fun n _ =>
      hshown (finds_receiver n) fun _ => rfl
  | census source => exact hshown (finds_circuitNamed hs source) fun _ => rfl
  | statevector source =>
    exact (finds_circuitNamed hs source).bind fun c _ => finds_shown _ fun _ => rfl
  | unitary source =>
    exact (finds_circuitNamed hs source).bind fun c _ => finds_shown _ fun _ => rfl
  | compare a b ignorePhase =>
    refine (finds_circuitNamed hs a).bind fun c _ => ?_
    refine (finds_ok (P := fun _ => True) fun _ _ => trivial).bind fun v _ => ?_
    refine (finds_circuitNamed hs b).bind fun d _ => ?_
    refine (finds_ok (P := fun _ => True) fun _ _ => trivial).bind fun w _ => ?_
    exact finds_get.bind fun t _ => finds_shown _ fun _ => rfl
  | exported source =>
    exact (finds_circuitNamed hs source).bind fun c _ => finds_shown _ fun _ => rfl
  | fail f => exact finds_throw f
  | _ => cases hc

theorem keeps_prepareOperands (register controls : Refs α)
    {preparation : Datum α → Datum α → Preparation α}
    (hp : ∀ d e, (preparation d e).register = d ∧ (preparation d e).controls = e) :
    Keeps L (prepareOperands receiver register controls preparation) ids s
      fun ids' r _ => r.Sound (Qubit.Known ids') := by
  refine (finds_refs hs register).bind_keeps hs fun d hd => ?_
  refine (finds_refs hs controls).bind_keeps hs fun e he => ?_
  have hregister : (preparation d e).register.Sound (Qubit.Known ids) := by rwa [(hp d e).1]
  have hcontrols : (preparation d e).controls.Sound (Qubit.Known ids) := by rwa [(hp d e).2]
  exact (keeps_prepare hs receiver hregister hcontrols).bind fun _ _ _ _ ht _ =>
    (finds_replyPrepared ht receiver _).keeps ht fun _ h => h

theorem keeps_perform (c : Command α) (hl : ∀ l ∈ c.labels, L l) :
    Keeps L (c.perform receiver) ids s fun ids' r _ => r.Sound (Qubit.Known ids') := by
  cases hc : c.isQuestion with
  | true => exact (finds_perform hs receiver hc).keeps hs fun _ h => h
  | false =>
    have hdone {β : Type} {a : Action α β} {Q : List String → β → Session α → Prop}
        (ha : Keeps L a ids s Q) : Keeps L (a >>= fun _ => pure (Reply.done : Reply α)) ids s
          fun ids' r _ => r.Sound (Qubit.Known ids') :=
      ha.bind fun _ _ _ _ ht _ => keeps_pure ht (Reply.sound_of_silent rfl)
    cases c with
    | createQubit identifier =>
      cases identifier with
      | text label =>
        have hlabel : L label := hl label (List.mem_singleton_self label)
        refine (keeps_createQubit hs hlabel).map fun ids' q t hq => ?_
        rintro _ ⟨⟩
        exact hq.1
      | _ => exact keeps_throw hs _
    | createCircuit size name =>
      exact (keeps_createCircuit hs _ name).bind fun _ n _ _ ht _ =>
        (finds_replyMade n false).keeps ht fun _ h => h
    | createList =>
      refine (keeps_createReceiver hs (r := .list []) fun _ h => by cases h).map fun _ n _ _ => ?_
      rintro _ ⟨⟩
      trivial
    | addQubit operand =>
      refine (finds_needReceiver receiver).bind_keeps hs fun n _ => ?_
      refine (finds_circuit n).bind_keeps hs fun c _ => ?_
      refine (finds_ref hs operand).bind_keeps hs fun d hd => ?_
      refine (keeps_addQubit hs hd).bind fun ids' q t _ ht hq => keeps_pure ht ?_
      rintro _ ⟨⟩
      exact hq.1
    | append gate =>
      refine (finds_needReceiver receiver).bind_keeps hs fun n _ => ?_
      refine (finds_gateRef hs gate).bind_keeps hs fun d hd => ?_
      refine (finds_receiver n).bind_keeps hs fun r hr => ?_
      refine (finds_ok ((hs.receiver_sound hr).yields_appendDatum hd)).bind_keeps hs fun t ht => ?_
      exact hdone (keeps_putReceiver hs n ht)
    | instruct instruction operands =>
      refine (finds_mapM fun r _ => finds_ref hs r).bind_keeps hs fun ds _ => ?_
      refine (finds_needReceiver receiver).bind_keeps hs fun n _ => ?_
      refine (finds_circuit n).bind_keeps hs fun c hc => ?_
      have hcs : c.Sound (Qubit.Known ids) := hs.receiver_sound hc
      refine (finds_ok (hcs.yields_instruct instruction ds)).bind_keeps hs fun d hd => ?_
      exact hdone (keeps_putReceiver hs n (r := .circuit d) hd)
    | extend other pairs =>
      refine (finds_needReceiver receiver).bind_keeps hs fun n _ => ?_
      refine (finds_named hs other).bind_keeps hs fun o _ => ?_
      have hwiring : Finds (pairs.mapM resolveWiring) s fun _ => True := by
        cases pairs with
        | none => exact finds_pure trivial
        | some pairs => exact (finds_wiring hs pairs).map fun _ _ => trivial
      exact hwiring.bind_keeps hs fun w _ => hdone (keeps_extend hs n _ w)
    | derive source how =>
      refine (finds_named hs source).bind_keeps hs fun o _ => ?_
      refine (finds_needReceiver o).bind_keeps hs fun n _ => ?_
      refine (finds_derivation hs n how).bind_keeps hs fun h hh => ?_
      exact (keeps_derive hs n hh).bind fun _ m _ _ ht _ =>
        (finds_replyMade m false).keeps ht fun _ h => h
    | multiplex tolerance angles axis controls target outer adjoint =>
      refine (finds_refs hs controls).bind_keeps hs fun cs hcs => ?_
      refine (finds_ref hs target).bind_keeps hs fun t ht => ?_
      refine (finds_refs hs outer).bind_keeps hs fun os hos => ?_
      exact hdone (keeps_synthesize hs _ fun frame hf =>
        MultiplexedRotation.yields_gates hf ⟨_, _, _, cs, t, os, _⟩ hcs ht hos)
    | diagonal tolerance angles register controls adjoint =>
      refine (finds_refs hs register).bind_keeps hs fun rs hrs => ?_
      refine (finds_refs hs controls).bind_keeps hs fun cs hcs => ?_
      exact hdone (keeps_synthesize hs _ fun frame hf =>
        DiagonalUnitary.yields_gates hf ⟨_, _, rs, cs, _⟩ hrs hcs)
    | unprepare tolerance coefficients controls target =>
      refine (finds_refs hs controls).bind_keeps hs fun cs hcs => ?_
      refine (finds_ref hs target).bind_keeps hs fun t ht => ?_
      exact hdone (keeps_synthesize hs _ fun frame hf =>
        Unpreparation.yields_gates hf ⟨_, _, cs, t⟩ hcs ht)
    | prepare | prepareExact | prepareReals | prepareExactReals =>
      exact keeps_prepareOperands hs receiver _ _ fun _ _ => ⟨rfl, rfl⟩
    | prepareState vector register tolerance =>
      refine (finds_refs hs register).bind_keeps hs fun d hd => ?_
      exact (keeps_prepareState hs vector hd receiver tolerance).bind fun _ _ _ _ ht _ =>
        (finds_replyPrepared ht receiver _).keeps ht fun _ h => h
    | _ => cases hc

theorem keeps_answer (handle : Option String) (c : Command α) (hl : ∀ l ∈ c.labels, L l) :
    Keeps L (c.answer receiver handle) ids s fun _ _ _ => True := by
  refine (keeps_perform hs receiver c hl).bind fun ids' r t _ ht hr => ?_
  cases ho : r.object? with
  | none => exact keeps_pure ht trivial
  | some o =>
    exact (keeps_give ht handle (hr o ho)).bind fun _ _ _ _ hu _ => keeps_pure hu trivial

omit receiver in
theorem keeps_enter (e : EnvironmentRef α) (handle : Option String) :
    Keeps L (enter e handle) ids s fun ids' p _ => p.1.Sound (Qubit.Known ids') := by
  refine (finds_environment hs e).bind_keeps hs fun e he => ?_
  refine (keeps_createReceiver hs (r := .list []) fun _ h => by cases h).bind ?_
  intro ids' buffer t hids ht _
  refine (keeps_give ht handle (o := .receiver buffer) trivial).bind fun ids'' _ u hids' hu _ => ?_
  exact keeps_pure hu (he.mono fun q hq => hq.mono (hids.trans hids'))

end Commands

end Script

/-! ## Runs -/

mutual

/-- The labels that are chosen for qubits when the script is run. -/
def Script.labels : Script α → List String
  | .step _ _ c => c.labels
  | .scope _ _ _ body => Script.labelsOf body

def Script.labelsOf : List (Script α) → List String
  | [] => []
  | script :: rest => script.labels ++ Script.labelsOf rest

end

/-- From the session `s` the run comes to a sound session, with more qubits maybe, and the property
holds of these and of the result. -/
def Maintains {β : Type} (L : String → Prop) (m : StateM (Session α) β) (ids : List String)
    (s : Session α) (P : List String → β → Prop) : Prop :=
  ∃ ids', ids <+: ids' ∧ (m.run s).2.Sound L ids' ∧ P ids' (m.run s).1

section Maintains

variable {β γ : Type} {m : StateM (Session α) β} {L : String → Prop} {s : Session α}
  {ids : List String} {P : List String → β → Prop} {Q : List String → γ → Prop}

theorem maintains_pure {b : β} (hs : s.Sound L ids) (h : P ids b) :
    Maintains L (pure b) ids s P := ⟨ids, List.prefix_rfl, hs, h⟩

theorem Maintains.bind {k : β → StateM (Session α) γ} (hm : Maintains L m ids s P)
    (hk : ∀ ids' b t, ids <+: ids' → t.Sound L ids' → P ids' b → Maintains L (k b) ids' t Q) :
    Maintains L (m >>= k) ids s Q := by
  obtain ⟨ids₁, hids₁, ht, hb⟩ := hm
  obtain ⟨ids₂, hids₂, h⟩ := hk ids₁ _ _ hids₁ ht hb
  exact ⟨ids₂, hids₁.trans hids₂, h⟩

theorem maintains_of_keeps {a : Action α β} {R : List String → β → Session α → Prop}
    (h : Keeps L a ids s R) (hR : ∀ ids' b t, R ids' b t → P ids' b) :
    Maintains L a.run ids s fun ids' e => Yields (P ids') e := by
  obtain ⟨e, t, ids', hrun, hids, ht, he⟩ := h
  unfold Maintains
  rw [hrun]
  exact ⟨ids', hids, ht, fun b hb => hR ids' b t (he b hb)⟩

end Maintains

theorem Script.maintains_watch {L : String → Prop} {s : Session α} {ids : List String}
    (receiver : Option (Object α))
    {part : StateM (Session α) (Option (Script.Emission α) → Script.Report α)}
    (h : Maintains L part ids s fun _ _ => True) :
    Maintains L (Script.watch receiver part) ids s fun _ _ => True := by
  obtain ⟨ids', hids, ht, -⟩ := h
  have hrun : part.run s = ((part.run s).1, (part.run s).2) := rfl
  refine ⟨ids', hids, ?_, trivial⟩
  rw [Script.run_watch hrun]
  exact ht

section Scripts

variable {L : String → Prop}

mutual

/-- A step or an environment keeps the session sound, whatever fails in it. -/
theorem Script.maintains_run {ids : List String} : ∀ (script : Script α) {s : Session α},
    (∀ l ∈ script.labels, L l) → s.Sound L ids → Maintains L script.run ids s fun _ _ => True
  | .step receiver handle c, s, hl, hs => by
    rw [Script.run]
    refine Maintains.bind (P := fun _ _ => True) ⟨ids, List.prefix_rfl, hs, trivial⟩ ?_
    intro ids₁ o t _ ht _
    refine Script.maintains_watch o ?_
    rw [← bind_pure_comp]
    exact (maintains_of_keeps (P := fun _ _ => True) (Script.keeps_answer ht o handle c hl)
      fun _ _ _ _ => trivial).bind fun _ _ _ _ hu _ => maintains_pure hu trivial
  | .scope receiver handle e body, s, hl, hs => by
    rw [Script.run]
    refine Maintains.bind (P := fun _ _ => True) ⟨ids, List.prefix_rfl, hs, trivial⟩ ?_
    intro ids₁ o t _ ht _
    refine Script.maintains_watch o ?_
    refine (maintains_of_keeps (Script.keeps_enter ht e handle) fun _ _ _ h => h).bind ?_
    intro ids₂ entered u _ hu hentered
    split
    · exact maintains_pure hu trivial
    · rename_i e buffer
      have he := hentered _ rfl
      refine (Script.maintains_runBody body hl hu).bind fun ids₃ result v hids hv _ => ?_
      obtain ⟨reports, failure⟩ := result
      cases failure with
      | some f => exact maintains_pure hv trivial
      | none =>
        have he := he.mono fun q hq => hq.mono hids
        refine (maintains_of_keeps (P := fun _ _ => True) (keeps_leave hv he buffer _)
          fun _ _ _ _ => trivial).bind fun _ outcome _ _ hw _ => ?_
        cases outcome with
        | ok _ => exact maintains_pure hw trivial
        | error f => exact maintains_pure hw trivial

/-- A body that stops at a failing step has kept the session sound up to there. -/
theorem Script.maintains_runBody {ids : List String} : ∀ (body : List (Script α)) {s : Session α},
    (∀ l ∈ Script.labelsOf body, L l) → s.Sound L ids →
      Maintains L (Script.runBody body) ids s fun _ _ => True
  | [], s, _, hs => by
    rw [Script.runBody]
    exact maintains_pure hs trivial
  | script :: rest, s, hl, hs => by
    obtain ⟨hscript, hrest⟩ := List.forall_mem_append.mp hl
    rw [Script.runBody]
    refine (Script.maintains_run script hscript hs).bind fun ids₁ report t _ ht _ => ?_
    cases report.failure? with
    | some f => exact maintains_pure ht trivial
    | none =>
      exact (Script.maintains_runBody rest hrest ht).bind fun _ _ _ _ hu _ =>
        maintains_pure hu trivial

end

end Scripts

/-! ## Circuits -/

/-- The sessions that come up when scripts are run, also inside of environments. -/
inductive Session.Reached (threshold tolerance : α) : Session α → Prop
  | start : Reached threshold tolerance (start threshold tolerance)
  | ran {s : Session α} (h : Reached threshold tolerance s) (script : Script α) :
    Reached threshold tolerance (script.run.run s).2
  | entered {s : Session α} (h : Reached threshold tolerance s) (e : Script.EnvironmentRef α)
    (handle : Option String) : Reached threshold tolerance ((Script.enter e handle).run.run s).2

/-- The same, if all labels that are chosen for qubits have the property `L`. -/
inductive Session.ReachedWith (L : String → Prop) (threshold tolerance : α) : Session α → Prop
  | start : ReachedWith L threshold tolerance (start threshold tolerance)
  | ran {s : Session α} (h : ReachedWith L threshold tolerance s) (script : Script α)
    (hl : ∀ l ∈ script.labels, L l) : ReachedWith L threshold tolerance (script.run.run s).2
  | entered {s : Session α} (h : ReachedWith L threshold tolerance s) (e : Script.EnvironmentRef α)
    (handle : Option String) :
    ReachedWith L threshold tolerance ((Script.enter e handle).run.run s).2

namespace Session

variable {threshold tolerance : α} {s : Session α}

theorem ReachedWith.sound {L : String → Prop} (h : s.ReachedWith L threshold tolerance) :
    ∃ ids, s.Sound L ids := by
  induction h with
  | start => exact ⟨[], start_sound threshold tolerance⟩
  | ran _ script hl ih =>
    obtain ⟨ids, hs⟩ := ih
    obtain ⟨ids', -, ht, -⟩ := Script.maintains_run script hl hs
    exact ⟨ids', ht⟩
  | entered _ e handle ih =>
    obtain ⟨ids, hs⟩ := ih
    obtain ⟨_, t, ids', hrun, -, ht, -⟩ := Script.keeps_enter hs e handle
    rw [hrun]
    exact ⟨ids', ht⟩

theorem ReachedWith.reached {L : String → Prop} (h : s.ReachedWith L threshold tolerance) :
    s.Reached threshold tolerance := by
  induction h with
  | start => exact .start
  | ran _ script _ ih => exact ih.ran script
  | entered _ e handle ih => exact ih.entered e handle

theorem ReachedWith.runAll {L : String → Prop} (h : s.ReachedWith L threshold tolerance)
    {scripts : List (Script α)} (hl : ∀ l ∈ Script.labelsOf scripts, L l) :
    ((Script.runAll scripts).run s).2.ReachedWith L threshold tolerance := by
  induction scripts generalizing s with
  | nil => exact h
  | cons script rest ih =>
    obtain ⟨hscript, hrest⟩ := List.forall_mem_append.mp hl
    have hrun := ih (h.ran script hscript) hrest
    rw [Script.runAll, List.mapM_cons]
    exact hrun

/-- Without a condition on the labels. -/
theorem Reached.reachedWith (h : s.Reached threshold tolerance) :
    s.ReachedWith (fun _ => True) threshold tolerance := by
  induction h with
  | start => exact .start
  | ran _ script ih => exact ih.ran script fun _ _ => trivial
  | entered _ e handle ih => exact ih.entered e handle

theorem Reached.sound (h : s.Reached threshold tolerance) :
    ∃ ids, s.Sound (fun _ => True) ids := h.reachedWith.sound

theorem Reached.runAll (h : s.Reached threshold tolerance) (scripts : List (Script α)) :
    ((Script.runAll scripts).run s).2.Reached threshold tolerance :=
  (h.reachedWith.runAll fun _ _ => trivial).reached

end Session

/-- A circuit on different qubits, in which whoever looks up the qubits of its gates finds them. -/
structure Circuit.Consistent (c : Circuit α) : Prop extends Circuit.WellFormed c where
  tokens_nodup : (c.qubits.map Qubit.token).Nodup
  /-- Simulation has an axis for each qubit of a gate. -/
  axes_found : ∀ g ∈ c.gates, ∀ q ∈ g.qubits, q ∈ State.axes c.qubits
  /-- Export has a place for each qubit of a gate. -/
  places_found : ∃ e, c.exported = .ok e ∧
    ∀ i ∈ e.instructions, ∀ place ∈ i.operands, place < c.qubits.length

/-- Qubits that are known differ in their tokens if they differ in their identifiers. -/
theorem Circuit.Sound.tokens_nodup {ids : List String} {c : Circuit α}
    (h : c.Sound (Qubit.Known ids)) : (c.qubits.map Qubit.token).Nodup :=
  (List.nodup_map_iff_inj_on h.qubits_nodup).mpr fun p hp q hq he =>
    (h.qubits_sound p hp).eq_of_token_eq (h.qubits_sound q hq) he

omit [Scalar α] in
theorem Gate.exists_exported_of_mem {g : Gate α} {qubits : List Qubit}
    (h : ∀ q ∈ g.qubits, q ∈ qubits) :
    ∃ i, g.exported qubits = .ok i ∧ ∀ place ∈ i.operands, place < qubits.length := by
  have hplaces (qs : List Qubit) (hqs : ∀ q ∈ qs, q ∈ qubits) :
      ∀ place ∈ qs.map qubits.idxOf, place < qubits.length := by
    intro place hplace
    obtain ⟨q, hq, rfl⟩ := List.mem_map.mp hplace
    exact List.idxOf_lt_length_of_mem (hqs q hq)
  cases hk : g.kind with
  | gphase =>
    refine ⟨_, by simp only [exported, hk]; rfl, hplaces _ fun q hq => ?_⟩
    exact h q (List.mem_append_left _ hq)
  | _ => exact ⟨_, by simp only [exported, base, hk]; rfl, hplaces _ h⟩

theorem Circuit.WellFormed.exists_exported {c : Circuit α} (h : c.WellFormed) :
    ∃ e, c.exported = .ok e ∧
      ∀ i ∈ e.instructions, ∀ place ∈ i.operands, place < c.qubits.length := by
  have heach : ∀ g ∈ c.gates.filter (!·.isGlobalPhase), ∃ i, g.exported c.qubits = .ok i ∧
      ∀ place ∈ i.operands, place < c.qubits.length := fun g hg =>
    Gate.exists_exported_of_mem (h.gate_qubits g (List.mem_filter.mp hg).1)
  obtain ⟨is, his⟩ := exists_forall₂ fun g hg => (heach g hg).imp fun _ hi => hi.1
  have hmapM := mapM_eq_ok_iff.mpr his
  have hplaces := yields_mapM fun g hg i hi => by
    obtain ⟨i', hi', hlt⟩ := heach g hg
    exact Except.ok.inj (hi'.symm.trans hi) ▸ hlt
  exact ⟨_, by rw [exported, hmapM]; rfl, hplaces is hmapM⟩

/-- **Consistent circuits.** Whenever a script has been run, to the end or up to a failure, every
circuit of the session is well formed: its qubits are different, as qubits and by their identifiers,
its gates touch no others, and each gate could have been made from its parts. So no look-up of a
qubit fails. -/
theorem reached_circuit_consistent {threshold tolerance : α} {s : Session α}
    (h : s.Reached threshold tolerance) {n : Nat} {c : Circuit α}
    (hc : s.receivers[n]? = some (.circuit c)) : c.Consistent := by
  obtain ⟨ids, hs⟩ := h.sound
  have hsound : c.Sound (Qubit.Known ids) := hs.receiver_sound hc
  exact ⟨hsound.toWellFormed, hsound.tokens_nodup,
    fun g hg q hq => List.mem_reverse.mpr (hsound.gate_qubits g hg q hq),
    hsound.toWellFormed.exists_exported⟩

/-- A circuit of two qubits; a flip that is refused, since it controls itself; a flip that is
not. -/
def refusedScripts : List (Script ℝ) :=
  [.step none (some "c") (.createCircuit (.integer 2) (some "main")),
    .step (some "c") none (.append (.controlledNot (.slot "c" 0) (.slot "c" 0))),
    .step (some "c") none (.append (.controlledNot (.slot "c" 0) (.slot "c" 1)))]

theorem reached_circuit_consistent_refused :
    ∃ c : Circuit ℝ, ((Script.runAll refusedScripts).run (Session.start 0 0)).2.receivers[0]? =
        some (.circuit c) ∧ c.gates = [Gate.x ⟨1, "qb_2"⟩ [⟨0, "qb_1"⟩]] ∧ c.Consistent := by
  have hrun : ((Script.runAll refusedScripts).run (Session.start 0 0)).2.receivers[0]? =
      some (.circuit ⟨"main", [⟨0, "qb_1"⟩, ⟨1, "qb_2"⟩], [Gate.x ⟨1, "qb_2"⟩ [⟨0, "qb_1"⟩]]⟩) := by
    rfl
  exact ⟨_, hrun, rfl,
    reached_circuit_consistent (Session.Reached.start.runAll refusedScripts) hrun⟩

end StateSynthesis
