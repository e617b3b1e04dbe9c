import StateSynthesis.Proofs.Validation

/-!
Larger tolerances leave out more. Every test against the tolerance is passed at a smaller one as
well (`exceeds_of_le`, `anyReaches_of_le`), and what a test protects is left out as a whole: a gate,
a subtree, or a conjugation together with the gates around it (`conjugated_sublist`). So each
recursion emits at the larger tolerance a part of what it emits at the smaller one, in the same
order, and the runs of a call at the two tolerances are alike but for that (`Agree`,
`Action.Thins`). Main statement: `synthesis_thins`.
-/
namespace StateSynthesis

open List

variable {α : Type}

/-! ## Two runs -/

/-- Two computations fail for the same reason, or return related values. -/
inductive Agree {β : Type} (R : β → β → Prop) : Except (Fault α) β → Except (Fault α) β → Prop
  | refused (f : Fault α) : Agree R (.error f) (.error f)
  | returned {b' b : β} (h : R b' b) : Agree R (.ok b') (.ok b)

/-- What both runs have done so far, they have done alike. -/
theorem Agree.bind_ok {β γ : Type} {R : γ → γ → Prop} (x : Except (Fault α) β)
    {k' k : β → Except (Fault α) γ} (h : ∀ b, x = .ok b → Agree R (k' b) (k b)) :
    Agree R (x >>= k') (x >>= k) := by
  cases x with
  | error f => exact .refused f
  | ok b => exact h b rfl

theorem Agree.bind_same {β γ : Type} {R : γ → γ → Prop} (x : Except (Fault α) β)
    {k' k : β → Except (Fault α) γ} (h : ∀ b, Agree R (k' b) (k b)) :
    Agree R (x >>= k') (x >>= k) := .bind_ok x fun b _ => h b

theorem Agree.bind {β γ : Type} {S : β → β → Prop} {R : γ → γ → Prop}
    {x' x : Except (Fault α) β} (hx : Agree S x' x) {k' k : β → Except (Fault α) γ}
    (h : ∀ b' b, S b' b → Agree R (k' b') (k b)) : Agree R (x' >>= k') (x >>= k) := by
  cases hx with
  | refused f => exact .refused f
  | returned hb => exact h _ _ hb

theorem Agree.guard {γ : Type} {R : γ → γ → Prop} {p : Prop} [Decidable p] (f : Fault α)
    {k' k : PUnit → Except (Fault α) γ} {x' x : Except (Fault α) γ} (h : Agree R x' x) :
    Agree R (if p then throw f >>= k' else x') (if p then throw f >>= k else x) := by
  split
  · exact .refused f
  · exact h

theorem Agree.imp {β : Type} {R S : β → β → Prop} {x' x : Except (Fault α) β} (h : Agree R x' x)
    (hRS : ∀ {b' b}, R b' b → S b' b) : Agree S x' x := by
  cases h with
  | refused f => exact .refused f
  | returned h => exact .returned (hRS h)

theorem Agree.refused_or_returned {β : Type} {R : β → β → Prop} {x' x : Except (Fault α) β}
    (h : Agree R x' x) : (∃ f, x' = .error f ∧ x = .error f) ∨
      ∃ b' b, x' = .ok b' ∧ x = .ok b ∧ R b' b := by
  cases h with
  | refused f => exact .inl ⟨f, rfl, rfl⟩
  | returned h => exact .inr ⟨_, _, rfl, rfl, h⟩

namespace Action

/-- From the session `s`, the actions fail for the same reason in the same session, or they return
the same, with sessions that differ in the receiver `n` at most: `a'` leaves it with some of the
gates that `a` leaves it with, in their order. -/
inductive Thins {β : Type} (a' a : Action α β) (s : Session α) (n : Nat) : Prop
  | refused {f : Fault α} {t : Session α} (h' : Fails a' s f t) (h : Fails a s f t)
  | delivered {b : β} {t : Session α} {r : Sink α} {gs' gs : List (Gate α)}
    (hr : t.receivers[n]? = some r) (hgs : gs' <+ gs)
    (h' : Returns a' s b { t with receivers := t.receivers.set n (r.extended gs') })
    (h : Returns a s b { t with receivers := t.receivers.set n (r.extended gs) })

variable {β γ : Type} {s t : Session α} {n : Nat}

theorem Thins.after {a : Action α β} {b : β} (ha : Returns a s b t) {k' k : β → Action α γ}
    (h : Thins (k' b) (k b) t n) : Thins (a >>= k') (a >>= k) s n := by
  cases h with
  | refused h' h => exact .refused (ha.bind_fails h') (ha.bind_fails h)
  | delivered hr hgs h' h => exact .delivered hr hgs (ha.bind h') (ha.bind h)

theorem Thins.bind_pure {a' a : Action α β} (h : Thins a' a s n) (f : β → γ) :
    Thins (a' >>= fun b => pure (f b)) (a >>= fun b => pure (f b)) s n := by
  cases h with
  | refused h' h => exact .refused (h'.bind _) (h.bind _)
  | delivered hr hgs h' h =>
    exact .delivered hr hgs (h'.bind (returns_pure _ _)) (h.bind (returns_pure _ _))

end Action

variable [Scalar α]

/-! ## Tests -/

/-- Comparisons are transitive, which they are in binary floating point too. -/
structure Scalar.Ordered (α : Type) [Scalar α] : Prop where
  le_trans : ∀ {x y z : α}, le x y = true → le y z = true → le x z = true
  lt_of_le_of_lt : ∀ {x y z : α}, le x y = true → lt y z = true → lt x z = true

theorem Scalar.ordered_real : Ordered ℝ where
  le_trans h h' := (le_real _ _).mpr (((le_real _ _).mp h).trans ((le_real _ _).mp h'))
  lt_of_le_of_lt h h' :=
    (lt_real _ _).mpr (((le_real _ _).mp h).trans_lt ((lt_real _ _).mp h'))

section Tests

variable (hα : Scalar.Ordered α) {τ τ' : α} (hle : Scalar.le τ τ' = true)

include hα hle

theorem Tolerance.exceeds_of_le {x : α} (h : exceeds τ' x = true) : exceeds τ x = true :=
  hα.lt_of_le_of_lt hle h

theorem Tolerance.anyReaches_of_le {xs : List α} (h : anyReaches τ' xs = true) :
    anyReaches τ xs = true := by
  obtain ⟨x, hx, hr⟩ := List.any_eq_true.mp h
  exact List.any_eq_true.mpr ⟨x, hx, hα.le_trans hle hr⟩

end Tests

/-! ## Sequences -/

/-- What a stronger test protects is left out first. -/
theorem ite_sublist {β : Type} {p' p : Bool} (hp : p' = true → p = true) {xs' xs : List β}
    (h : xs' <+ xs) : (if p' then xs' else []) <+ (if p then xs else []) := by
  cases hp' : p' with
  | false => exact nil_sublist _
  | true =>
    rw [if_pos (hp hp')]
    exact h

namespace Sequence

variable {gs' gs : List (Gate α)}

theorem inverse_sublist (h : gs' <+ gs) : inverse gs' <+ inverse gs := (h.reverse).map _

theorem oriented_sublist (adjoint : Bool) (h : gs' <+ gs) :
    oriented adjoint gs' <+ oriented adjoint gs := by
  cases adjoint
  · exact h
  · exact inverse_sublist h

omit [Scalar α] in
theorem controlled_sublist (cs : List Qubit) (h : gs' <+ gs) :
    controlled cs gs' <+ controlled cs gs := h.map _

/-- The gates around a sequence are left out if nothing is left of it, and kept otherwise. -/
theorem conjugated_sublist (vs : List (Gate α)) (h : gs' <+ gs) :
    conjugated vs gs' <+ conjugated vs gs := by
  cases gs' with
  | nil => exact nil_sublist _
  | cons g gs' =>
    have hne : gs ≠ [] := fun e => by simp [e] at h
    have hempty : gs.isEmpty = false := by simpa using hne
    simp only [conjugated, isEmpty_cons, hempty]
    exact ((Sublist.refl vs).append h).append (Sublist.refl _)

end Sequence

/-! ## Recursions -/

section Recursions

variable (hα : Scalar.Ordered α) {τ τ' : α} (hle : Scalar.le τ τ' = true)

include hα hle

namespace Multiplexer

theorem leaf_sublist (gate : α → Gate α) (angles : List α) :
    leaf τ' gate angles <+ leaf τ gate angles :=
  ite_sublist (Tolerance.exceeds_of_le hα hle) (Sublist.refl _)

theorem aboutZ_sublist (target : Qubit) (cs : List Qubit) (angles : List α) :
    aboutZ τ' target cs angles <+ aboutZ τ target cs angles := by
  induction cs generalizing angles with
  | nil => exact leaf_sublist hα hle _ angles
  | cons c cs ih =>
    exact (ih _).append (ite_sublist (Tolerance.anyReaches_of_le hα hle)
      (Sequence.conjugated_sublist _ (ih _)))

theorem underOuter_sublist (target : Qubit) (controls outer : List Qubit) (angles : List α) :
    underOuter τ' target controls outer angles <+ underOuter τ target controls outer angles := by
  unfold underOuter
  split
  · exact aboutZ_sublist hα hle target controls angles
  · exact (aboutZ_sublist hα hle target controls _).append
      (ite_sublist (Tolerance.anyReaches_of_le hα hle)
        (Sequence.conjugated_sublist _ (aboutZ_sublist hα hle target controls _)))

theorem gates_sublist (axis : Axis) (controls : List Qubit) (target : Qubit) (outer : List Qubit)
    (angles : List α) :
    gates τ' axis controls target outer angles <+ gates τ axis controls target outer angles := by
  have hbody := underOuter_sublist hα hle target controls.reverse outer angles
  have hbases (ks : List Kind) {gs' gs : List (Gate α)} (h : gs' <+ gs) :
      ks.foldr (fun k body => Sequence.conjugated [Gate.basis k target] body) gs' <+
        ks.foldr (fun k body => Sequence.conjugated [Gate.basis k target] body) gs := by
    induction ks with
    | nil => exact h
    | cons k ks ih => exact Sequence.conjugated_sublist _ ih
  cases axis with
  | identity =>
    exact leaf_sublist hα hle (fun a => Gate.gphase (Scalar.half (-a)) outer) angles
  | x => exact hbases _ hbody
  | y => exact hbases _ hbody
  | z => exact hbases _ hbody

end Multiplexer

theorem Diagonal.phases_sublist (qs : List Qubit) (angles : List α) :
    phases τ' qs angles <+ phases τ qs angles := by
  induction qs generalizing angles with
  | nil => exact Multiplexer.leaf_sublist hα hle _ angles
  | cons q qs ih => exact (Multiplexer.aboutZ_sublist hα hle q qs _).append (ih _)

theorem Preparation.disentangle_sublist (qs : List Qubit) (as : List (Amplitude α)) :
    disentangle τ' qs as <+ disentangle τ qs as := by
  induction qs generalizing as with
  | nil => exact Multiplexer.leaf_sublist hα hle _ _
  | cons q qs ih =>
    have hdeeper (merged : List (Amplitude α))
        (h : (qs.isEmpty || merged.any (fun a => Tolerance.exceeds τ' a.magnitude)) = true) :
        (qs.isEmpty || merged.any (fun a => Tolerance.exceeds τ a.magnitude)) = true := by
      simp only [Bool.or_eq_true, List.any_eq_true] at h ⊢
      exact h.imp_right fun ⟨a, ha, he⟩ => ⟨a, ha, Tolerance.exceeds_of_le hα hle he⟩
    have hlevel (axis : Axis) (angles : List α) :
        (if Tolerance.anyReaches τ' angles then
          Multiplexer.gates τ' axis qs q [] (angles.map (- ·)) else []) <+
        (if Tolerance.anyReaches τ angles then
          Multiplexer.gates τ axis qs q [] (angles.map (- ·)) else []) :=
      ite_sublist (Tolerance.anyReaches_of_le hα hle) (Multiplexer.gates_sublist hα hle ..)
    exact (hlevel .z _).append ((hlevel .y _).append (ite_sublist (hdeeper _) (ih _)))

end Recursions

/-! ## Calls -/

/-- The call with another tolerance. -/
def SynthesisCall.withTolerance (τ : α) : SynthesisCall α → SynthesisCall α
  | rotation _ angles axis controls target outer adjoint =>
    rotation τ angles axis controls target outer adjoint
  | diagonal _ angles register controls adjoint => diagonal τ angles register controls adjoint
  | unpreparation _ coefficients controls target => unpreparation τ coefficients controls target
  | preparation _ coefficients register controls adjoint =>
    preparation τ coefficients register controls adjoint

section Calls

variable (hα : Scalar.Ordered α) {τ τ' : α} (h0 : Scalar.le Scalar.zero τ = true)
  (hle : Scalar.le τ τ' = true)

include hα h0 hle

theorem Tolerance.check_agree : Agree (fun _ _ => True) (check τ') (check τ) := by
  simp only [check, if_pos h0, if_pos (hα.le_trans h0 hle)]
  exact .returned trivial

theorem MultiplexedRotation.gates_agree (r : MultiplexedRotation α) (frame : Option (Circuit α)) :
    Agree Sublist ({ r with tolerance := τ' }.gates frame)
      ({ r with tolerance := τ }.gates frame) := by
  refine (Tolerance.check_agree hα h0 hle).bind fun _ _ _ => ?_
  refine Agree.bind_same _ fun axis => ?_
  refine Agree.bind_same _ fun controls => ?_
  refine Agree.bind_same _ fun outer => ?_
  refine Agree.bind_same _ fun target => Agree.guard _ ?_
  refine Agree.bind_same _ fun _ => Agree.bind_same _ fun angles => ?_
  exact .returned (Sequence.oriented_sublist _
    (Multiplexer.gates_sublist hα hle axis controls target outer angles))

theorem DiagonalUnitary.gates_agree (d : DiagonalUnitary α) (frame : Option (Circuit α)) :
    Agree Sublist ({ d with tolerance := τ' }.gates frame)
      ({ d with tolerance := τ }.gates frame) := by
  refine (Tolerance.check_agree hα h0 hle).bind fun _ _ _ => ?_
  refine Agree.bind_same _ fun register => ?_
  refine Agree.bind_same _ fun controls => Agree.guard _ ?_
  refine Agree.bind_same _ fun _ => Agree.bind_same _ fun angles => ?_
  exact .returned (Sequence.controlled_sublist _ (Sequence.oriented_sublist _
    (Diagonal.phases_sublist hα hle _ angles)))

theorem Unpreparation.gates_agree (u : Unpreparation α) (frame : Option (Circuit α)) :
    Agree Sublist ({ u with tolerance := τ' }.gates frame)
      ({ u with tolerance := τ }.gates frame) := by
  refine (Tolerance.check_agree hα h0 hle).bind fun _ _ _ => ?_
  refine Agree.bind_same _ fun controls => ?_
  refine Agree.bind_same _ fun target => ?_
  refine Agree.bind_same _ fun _ => Agree.bind_same _ fun as => ?_
  exact .returned (Preparation.disentangle_sublist hα hle _ as)

omit h0 in
theorem Preparation.gates?_agree (p : Preparation α) (frame : Option (Circuit α)) :
    Agree (Option.Rel Sublist) ({ p with tolerance := τ' }.gates? frame)
      ({ p with tolerance := τ }.gates? frame) := by
  refine Agree.bind_same _ fun register => ?_
  refine Agree.bind_same _ fun controls => Agree.guard _ ?_
  refine Agree.bind_same _ fun _ => Agree.bind_same _ fun as => ?_
  split
  · exact .returned .none
  · exact .returned (.some (Sequence.controlled_sublist _ (Sequence.oriented_sublist _
      (disentangle_sublist hα hle register as))))

theorem SynthesisCall.emitted_agree (c : SynthesisCall α) (frame : Option (Circuit α)) :
    Agree Sublist ((c.withTolerance τ').emitted frame) ((c.withTolerance τ).emitted frame) := by
  cases c with
  | rotation => exact MultiplexedRotation.gates_agree hα h0 hle ⟨τ, _, _, _, _, _, _⟩ frame
  | diagonal => exact DiagonalUnitary.gates_agree hα h0 hle ⟨τ, _, _, _, _⟩ frame
  | unpreparation => exact Unpreparation.gates_agree hα h0 hle ⟨τ, _, _, _⟩ frame
  | preparation =>
    refine (Tolerance.check_agree hα h0 hle).bind fun _ _ _ => ?_
    refine (Preparation.gates?_agree hα hle ⟨τ, _, _, _, _⟩ frame).bind fun gs' gs hgs => ?_
    cases hgs with
    | none => exact .returned (nil_sublist _)
    | some h => exact .returned h

end Calls

/-! ## Runs in a session -/

/-- The qubits of a circuit that are resolved are among its own, so it takes the gates. -/
theorem Preparation.takes_of_gates? {p : Preparation α} {r : Sink α} {gs : List (Gate α)}
    (h : p.gates? r.circuit? = .ok (some gs)) : ∀ g ∈ gs, r.Takes g := by
  obtain ⟨register, controls, as, hp, has⟩ := resolves_of_gates? h
  obtain ⟨gs?, hgs, hon⟩ := hp.exists_gates? has
  obtain rfl := Except.ok.inj (hgs.symm.trans h)
  exact (hon gs rfl).takes fun c hc q hq => (List.mem_append.mp hq).elim
    (Operands.mem_of_resolveAll hp.register_ok c hc q)
    (Operands.mem_of_resolveAll hp.controls_ok c hc q)

/-- What a preparation gives to its receiver, and whether there is a warning. -/
theorem Action.returns_prepareInto {p : Preparation α} {s : Session α} {n : Nat} {r : Sink α}
    (hr : s.receivers[n]? = some r) {gs? : Option (List (Gate α))}
    (hg : p.gates? r.circuit? = .ok gs?) : Returns (prepareInto p (some n)) s gs?.isNone
      { s with receivers := s.receivers.set n (r.extended (gs?.getD [])) } := by
  cases gs? with
  | none =>
    rw [Option.getD_none, Session.set_extended_nil hr]
    exact (returns_frame hr).bind ((returns_ok hg s).bind (returns_pure true s))
  | some gs =>
    have hdeliver := returns_deliver hr (Preparation.takes_of_gates? hg)
    exact (returns_frame hr).bind ((returns_ok hg s).bind (hdeliver.bind (returns_pure false _)))

theorem Action.fails_prepareInto {p : Preparation α} {s : Session α} {n : Nat} {r : Sink α}
    (hr : s.receivers[n]? = some r) {f : Fault α} (hf : p.gates? r.circuit? = .error f) :
    Fails (prepareInto p (some n)) s f s :=
  (returns_frame hr).bind_fails ((fails_error hf s).bind _)

namespace Action

variable (hα : Scalar.Ordered α) {τ τ' : α} (h0 : Scalar.le Scalar.zero τ = true)
  (hle : Scalar.le τ τ' = true)

include hα hle

theorem prepareInto_thins (p : Preparation α) {s : Session α} {n : Nat} {r : Sink α}
    (hr : s.receivers[n]? = some r) : Thins (prepareInto { p with tolerance := τ' } (some n))
      (prepareInto { p with tolerance := τ } (some n)) s n := by
  rcases (Preparation.gates?_agree hα hle p r.circuit?).refused_or_returned with
    ⟨f, hf', hf⟩ | ⟨gs', gs, hg', hg, hgs⟩
  · exact .refused (fails_prepareInto hr hf') (fails_prepareInto hr hf)
  · cases hgs with
    | none =>
      exact .delivered (b := true) hr (nil_sublist []) (returns_prepareInto hr hg')
        (returns_prepareInto hr hg)
    | some hsub =>
      exact .delivered (b := false) hr hsub (returns_prepareInto hr hg') (returns_prepareInto hr hg)

include h0

/-- A preparation that is given no receiver makes the same circuit for both tolerances. -/
theorem prepare_thins (p : Preparation α) (s : Session α) :
    Thins (prepare { p with tolerance := τ' } none) (prepare { p with tolerance := τ } none) s
      s.receivers.length := by
  have hτ : Tolerance.check τ = .ok () := if_pos h0
  have hτ' : Tolerance.check τ' = .ok () := if_pos (hα.le_trans h0 hle)
  simp only [prepare, hτ, hτ']
  refine Thins.after (returns_ok rfl s) (Thins.after (returns_defaultName s) ?_)
  cases hc : p.freshCircuit ("circuit_" ++ toString s.receivers.length) with
  | error f => exact .refused ((fails_error hc s).bind _) ((fails_error hc s).bind _)
  | ok c =>
    refine Thins.after (returns_ok hc s) (Thins.after (returns_createReceiver _ s) ?_)
    exact (prepareInto_thins hα hle p List.getElem?_concat_length).bind_pure _

end Action

namespace SynthesisCall

variable (hα : Scalar.Ordered α) {τ τ' : α} (h0 : Scalar.le Scalar.zero τ = true)
  (hle : Scalar.le τ τ' = true)

include hα h0 hle

theorem perform_thins (c : SynthesisCall α) {s : Session α} {n : Nat} {r : Sink α}
    (hr : s.receivers[n]? = some r) :
    Action.Thins ((c.withTolerance τ').perform n) ((c.withTolerance τ).perform n) s n := by
  rcases (emitted_agree hα h0 hle c r.circuit?).refused_or_returned with
    ⟨f, hf', hf⟩ | ⟨gs', gs, hg', hg, hgs⟩
  · exact .refused (fails_perform hr hf') (fails_perform hr hf)
  · exact .delivered hr hgs (returns_perform hr hg' (takes_of_emitted hg'))
      (returns_perform hr hg (takes_of_emitted hg))

end SynthesisCall

/-! ## The result -/

/-- **Thinning.** At a larger tolerance every call of the synthesis emits some of the gates that it
emits at a smaller one, the same gates in the same order, and no others; or it is refused at both,
for the same reason. This is what is left in a session, in the receiver that the call is given, or
in the circuit that a preparation makes. -/
theorem synthesis_thins (hα : Scalar.Ordered α) {τ τ' : α} (h0 : Scalar.le Scalar.zero τ = true)
    (hle : Scalar.le τ τ' = true) :
    (∀ (c : SynthesisCall α) (frame : Option (Circuit α)),
      Agree (fun gs' gs => gs' <+ gs ∧ gs'.length ≤ gs.length)
        ((c.withTolerance τ').emitted frame) ((c.withTolerance τ).emitted frame)) ∧
    (∀ (c : SynthesisCall α) (s : Session α) (n : Nat) (r : Sink α), s.receivers[n]? = some r →
      Action.Thins ((c.withTolerance τ').perform n) ((c.withTolerance τ).perform n) s n) ∧
    ∀ (p : Preparation α) (s : Session α),
      Action.Thins (Action.prepare { p with tolerance := τ' } none)
        (Action.prepare { p with tolerance := τ } none) s s.receivers.length := by
  refine ⟨fun c frame => ?_, fun c s n r hr => SynthesisCall.perform_thins hα h0 hle c hr,
    fun p s => Action.prepare_thins hα h0 hle p s⟩
  exact (SynthesisCall.emitted_agree hα h0 hle c frame).imp fun h => ⟨h, h.length_le⟩

open SynthesisCall in
/-- A rotation about `x` by three radian or by one, at the tolerances zero and one and a half. -/
theorem synthesis_thins_rotation :
    ∃ gs' gs, (rotation (3 / 2 : ℝ) [3, 1] .x [.qubit ⟨0, "a"⟩] (.qubit ⟨1, "b"⟩) [] false).emitted
        none = .ok gs' ∧
      (rotation (0 : ℝ) [3, 1] .x [.qubit ⟨0, "a"⟩] (.qubit ⟨1, "b"⟩) [] false).emitted none =
        .ok gs ∧
      gs' <+ gs ∧ gs'.length ≤ gs.length := by
  have hnames : List.Forall₂ (Operands.Names (none : Option (Circuit ℝ)))
      [.qubit ⟨0, "a"⟩, .qubit ⟨1, "b"⟩] [⟨0, "a"⟩, ⟨1, "b"⟩] :=
    .cons (.free _) (.cons (.free _) .nil)
  have haccepted : (rotation (0 : ℝ) [3, 1] .x [.qubit ⟨0, "a"⟩] (.qubit ⟨1, "b"⟩) []
      false).Accepted none [⟨0, "a"⟩, ⟨1, "b"⟩] := {
    tolerance_ok := by simp [tolerance]
    names := hnames
    distinct := by decide
    fits := by simp [SynthesisCall.count, width]
    wellFormed := by simp [Malformed]
    pairs := by simp [coefficients] }
  obtain ⟨gs, hgs, -⟩ := emitted_of_accepted (by simp [coefficients]) haccepted
  have hzero : Scalar.le Scalar.zero (0 : ℝ) = true := by simp
  have hle : Scalar.le (0 : ℝ) (3 / 2) = true := by norm_num
  have hagree := (synthesis_thins Scalar.ordered_real hzero hle).1
    (rotation 0 [3, 1] .x [.qubit ⟨0, "a"⟩] (.qubit ⟨1, "b"⟩) [] false) none
  rcases hagree.refused_or_returned with ⟨f, -, hf⟩ | ⟨hs', hs, hhs', hhs, hsub⟩
  · exact absurd (hgs.symm.trans hf) (by simp)
  · exact ⟨hs', hs, hhs', hhs, hsub⟩

end StateSynthesis
