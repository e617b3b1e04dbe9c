import StateSynthesis.Proofs.Reading
import StateSynthesis.Proofs.Soundness
import StateSynthesis.Session.Circuits
import StateSynthesis.Session.Synthesis

/-!
Actions that keep a session sound. A session is sound if all that is in it is, with the qubits that
were created so far, which fixes the identifier of a qubit by its token (`Known.eq_of_token_eq`).
The identifiers of these qubits are labels that somebody chose, or were made up and counted. Some
actions only look (`Finds`). The others lead from a sound session to a sound session, whether they
return or fail, and may have created qubits on the way (`Keeps`).
-/
namespace StateSynthesis

/-! ## Sound sessions -/

/-- The qubit is one of those that were created, with the identifiers `ids` in this order. -/
def Qubit.Known (ids : List String) (q : Qubit) : Prop := ids[q.token]? = some q.identifier

namespace Qubit

variable {ids ids' : List String} {p q : Qubit}

theorem Known.mono (h : q.Known ids) (hids : ids <+: ids') : q.Known ids' := by
  obtain ⟨more, rfl⟩ := hids
  exact (List.getElem?_append_left (List.getElem?_eq_some_iff.mp h).1).trans h

/-- Known qubits are told apart by their tokens. -/
theorem Known.eq_of_token_eq (hp : p.Known ids) (hq : q.Known ids) (h : p.token = q.token) :
    p = q := by
  have hid : p.identifier = q.identifier := Option.some.inj (hp.symm.trans (h ▸ hq))
  exact congrArg₂ Qubit.mk h hid

theorem known_concat (ids : List String) (identifier : String) :
    Known (ids ++ [identifier]) ⟨ids.length, identifier⟩ := List.getElem?_concat_length

end Qubit

variable {α β γ δ : Type} [Scalar α]

def Object.Sound (P : Qubit → Prop) : Object α → Prop
  | qubit q => P q
  | gate g => g.Sound P
  | receiver _ => True

def Derivation.Sound (P : Qubit → Prop) : Derivation α → Prop
  | control controls => controls.Sound P
  | copy | clear | inverse => True

/-- The qubits that were created have the identifiers `ids`, which are labels with the property `L`
or were made up so far, and there are no others. -/
structure Session.Sound (L : String → Prop) (ids : List String) (s : Session α) : Prop where
  created_eq : s.created = ids.length
  origin : ∀ id ∈ ids, L id ∨ ∃ m ≤ s.generated, id = "qb_" ++ toString m
  receivers_sound : ∀ r ∈ s.receivers, r.Sound (Qubit.Known ids)
  names_sound : ∀ p ∈ s.names, p.2.Sound (Qubit.Known ids)

/-- The receiver `n` is a circuit with the qubits `qs`, and others maybe. -/
def Session.Holds {α : Type} (s : Session α) (n : Nat) (qs : List Qubit) : Prop :=
  ∃ c, s.receivers[n]? = some (.circuit c) ∧ ∀ q ∈ qs, q ∈ c.qubits

theorem Object.Sound.mono {P P' : Qubit → Prop} {o : Object α} (h : o.Sound P)
    (hP : ∀ q, P q → P' q) : o.Sound P' := by
  cases o with
  | qubit q => exact hP q h
  | gate g => exact Gate.Sound.mono h hP
  | receiver n => trivial

namespace Session

variable {L : String → Prop} {s : Session α} {ids : List String}

theorem start_sound (threshold tolerance : α) : (start threshold tolerance).Sound L [] :=
  ⟨rfl, by simp, by simp [start], by simp [start]⟩

theorem Sound.receiver_sound (h : s.Sound L ids) {n : Nat} {r : Sink α}
    (hr : s.receivers[n]? = some r) : r.Sound (Qubit.Known ids) :=
  h.receivers_sound r (List.mem_of_getElem? hr)

theorem Sound.named_sound (h : s.Sound L ids) {name : String} {o : Object α}
    (ho : s.named name = some o) : o.Sound (Qubit.Known ids) := by
  obtain ⟨before, after, hnames, -⟩ := List.lookup_eq_some_iff.mp ho
  exact h.names_sound (name, o) (by rw [hnames]; simp)

theorem Sound.put (h : s.Sound L ids) (n : Nat) {r : Sink α} (hr : r.Sound (Qubit.Known ids)) :
    { s with receivers := s.receivers.set n r }.Sound L ids := by
  refine ⟨h.created_eq, h.origin, fun t ht => ?_, h.names_sound⟩
  rcases List.mem_or_eq_of_mem_set ht with ht | rfl
  · exact h.receivers_sound t ht
  · exact hr

theorem Sound.add (h : s.Sound L ids) {r : Sink α} (hr : r.Sound (Qubit.Known ids)) :
    { s with receivers := s.receivers ++ [r] }.Sound L ids :=
  ⟨h.created_eq, h.origin,
    List.forall_mem_append.mpr ⟨h.receivers_sound, List.forall_mem_singleton.mpr hr⟩, h.names_sound⟩

theorem Sound.give (h : s.Sound L ids) (name : String) {o : Object α}
    (ho : o.Sound (Qubit.Known ids)) : (s.give name o).Sound L ids :=
  ⟨h.created_eq, h.origin, h.receivers_sound, List.forall_mem_cons.mpr ⟨ho, h.names_sound⟩⟩

theorem Sound.create (h : s.Sound L ids) {identifier : String} {generated : Nat}
    (hle : s.generated ≤ generated)
    (hid : L identifier ∨ ∃ m ≤ generated, identifier = "qb_" ++ toString m) :
    { s with created := s.created + 1, generated }.Sound L (ids ++ [identifier]) := by
  have hmono (q : Qubit) (hq : q.Known ids) := hq.mono (List.prefix_append ids [identifier])
  have horigin : ∀ id ∈ ids, L id ∨ ∃ m ≤ generated, id = "qb_" ++ toString m := fun id hmem =>
    (h.origin id hmem).imp_right fun ⟨m, hm, he⟩ => ⟨m, hm.trans hle, he⟩
  exact ⟨by simp [h.created_eq],
    List.forall_mem_append.mpr ⟨horigin, List.forall_mem_singleton.mpr hid⟩,
    fun r hr => (h.receivers_sound r hr).mono hmono, fun p hp => (h.names_sound p hp).mono hmono⟩

end Session

/-! ## Judgements -/

namespace Action

/-- The action leaves the session as it is, and what it returns, if it does, has the property. -/
def Finds {α β : Type} (a : Action α β) (s : Session α) (P : β → Prop) : Prop :=
  ∃ e, Reads a s e ∧ Yields P e

/-- From the session `s`, in which the created qubits have the identifiers `ids`, the action comes
to a sound session, with more qubits maybe. If it returns, the property holds of these, of what it
returns, and of the session. -/
def Keeps (L : String → Prop) (a : Action α β) (ids : List String) (s : Session α)
    (P : List String → β → Session α → Prop) : Prop :=
  ∃ e t ids', a.run.run s = (e, t) ∧ ids <+: ids' ∧ t.Sound L ids' ∧ Yields (P ids' · t) e

section Finds

variable {α : Type} {s : Session α} {P : β → Prop} {Q : γ → Prop}

theorem finds_ok {e : Except (Fault α) β} (h : Yields P e) : Finds (liftM e) s P := ⟨e, rfl, h⟩

theorem finds_pure {b : β} (h : P b) : Finds (pure b : Action α β) s P := ⟨.ok b, rfl, yields_ok h⟩

theorem finds_throw (f : Fault α) : Finds (throw f : Action α β) s P :=
  ⟨.error f, rfl, yields_error f⟩

theorem Finds.bind {a : Action α β} {k : β → Action α γ} (ha : Finds a s P)
    (hk : ∀ b, P b → Finds (k b) s Q) : Finds (a >>= k) s Q := by
  obtain ⟨e, ha, he⟩ := ha
  cases e with
  | error f => exact ⟨.error f, Fails.bind ha k, yields_error f⟩
  | ok b =>
    obtain ⟨e', hb, he'⟩ := hk b (he b rfl)
    exact ⟨e', (Returns.run_bind ha k).trans hb, he'⟩

theorem Finds.imp {P' : β → Prop} {a : Action α β} (ha : Finds a s P) (hP : ∀ b, P b → P' b) :
    Finds a s P' := by
  obtain ⟨e, ha, he⟩ := ha
  exact ⟨e, ha, fun b hb => hP b (he b hb)⟩

theorem finds_guard {p : Prop} [Decidable p] {f : Fault α} {k : β → Action α γ} {a : Action α γ}
    (ha : Finds a s Q) : Finds (if p then throw f >>= k else a) s Q := by
  split
  · exact ⟨.error f, (fails_throw f s).bind k, yields_error f⟩
  · exact ha

theorem Finds.map {a : Action α β} {f : β → γ} (ha : Finds a s P) (hf : ∀ b, P b → Q (f b)) :
    Finds (f <$> a) s Q := by
  rw [← bind_pure_comp]
  exact ha.bind fun b hb => finds_pure (hf b hb)

theorem finds_mapM {f : δ → Action α β} {ds : List δ} (h : ∀ d ∈ ds, Finds (f d) s P) :
    Finds (ds.mapM f) s (∀ b ∈ ·, P b) := by
  induction ds with
  | nil => exact finds_pure (by simp)
  | cons d ds ih =>
    obtain ⟨hd, hds⟩ := List.forall_mem_cons.mp h
    rw [List.mapM_cons]
    exact hd.bind fun b hb => (ih hds).bind fun bs hbs =>
      finds_pure (List.forall_mem_cons.mpr ⟨hb, hbs⟩)

theorem finds_get : Finds get s (· = s) := ⟨.ok s, rfl, yields_ok rfl⟩

end Finds

section Keeps

variable {L : String → Prop} {s : Session α} {ids : List String} {P : β → Prop}
  {Q : List String → β → Session α → Prop}
  {R : List String → γ → Session α → Prop}

theorem Finds.keeps {a : Action α β} (h : Finds a s P) (hs : s.Sound L ids)
    (hQ : ∀ b, P b → Q ids b s) : Keeps L a ids s Q := by
  obtain ⟨e, ha, he⟩ := h
  exact ⟨e, s, ids, ha, List.prefix_rfl, hs, fun b hb => hQ b (he b hb)⟩

theorem keeps_pure {b : β} (hs : s.Sound L ids) (h : Q ids b s) : Keeps L (pure b) ids s Q :=
  (finds_pure (P := (Q ids · s)) h).keeps hs fun _ hb => hb

theorem keeps_throw (hs : s.Sound L ids) (f : Fault α) : Keeps L (throw f) ids s Q :=
  (finds_throw (P := fun _ => False) f).keeps hs fun _ hb => hb.elim

theorem keeps_guard {p : Prop} [Decidable p] (hs : s.Sound L ids) {f : Fault α} {k : β → Action α γ}
    {a : Action α γ} (ha : Keeps L a ids s R) :
    Keeps L (if p then throw f >>= k else a) ids s R := by
  split
  · exact ⟨.error f, s, ids, (fails_throw f s).bind k, List.prefix_rfl, hs, yields_error f⟩
  · exact ha

theorem Finds.bind_keeps {a : Action α β} {k : β → Action α γ} (ha : Finds a s P)
    (hs : s.Sound L ids) (hk : ∀ b, P b → Keeps L (k b) ids s R) : Keeps L (a >>= k) ids s R := by
  obtain ⟨e, ha, he⟩ := ha
  cases e with
  | error f => exact ⟨.error f, s, ids, Fails.bind ha k, List.prefix_rfl, hs, yields_error f⟩
  | ok b =>
    obtain ⟨e', t, ids', hrun, h⟩ := hk b (he b rfl)
    exact ⟨e', t, ids', (Returns.run_bind ha k).trans hrun, h⟩

theorem Keeps.bind {a : Action α β} {k : β → Action α γ} (ha : Keeps L a ids s Q)
    (hk : ∀ ids' b t, ids <+: ids' → t.Sound L ids' → Q ids' b t → Keeps L (k b) ids' t R) :
    Keeps L (a >>= k) ids s R := by
  obtain ⟨e, t, ids', ha, hids, ht, he⟩ := ha
  cases e with
  | error f => exact ⟨.error f, t, ids', Fails.bind ha k, hids, ht, yields_error f⟩
  | ok b =>
    obtain ⟨e', u, ids'', hrun, hids', h⟩ := hk ids' b t hids ht (he b rfl)
    exact ⟨e', u, ids'', (Returns.run_bind ha k).trans hrun, hids.trans hids', h⟩

theorem Keeps.imp {a : Action α β} {Q' : List String → β → Session α → Prop}
    (ha : Keeps L a ids s Q) (hQ : ∀ ids' b t, Q ids' b t → Q' ids' b t) : Keeps L a ids s Q' := by
  obtain ⟨e, t, ids', hrun, hids, ht, he⟩ := ha
  exact ⟨e, t, ids', hrun, hids, ht, fun b hb => hQ ids' b t (he b hb)⟩

theorem Keeps.map {a : Action α β} {f : β → γ} (ha : Keeps L a ids s Q)
    (hf : ∀ ids' b t, Q ids' b t → R ids' (f b) t) : Keeps L (f <$> a) ids s R := by
  rw [← bind_pure_comp]
  exact ha.bind fun ids' b t _ ht hb => keeps_pure ht (hf ids' b t hb)

end Keeps

/-! ## Looking -/

section Looking

variable {L : String → Prop} {s : Session α} {ids : List String}

omit [Scalar α] in
theorem finds_receiver (n : Nat) : Finds (receiver n) s (s.receivers[n]? = some ·) := by
  refine finds_get.bind ?_
  rintro _ rfl
  split
  · rename_i r hr
    exact finds_pure hr
  · exact finds_throw _

omit [Scalar α] in
theorem finds_circuit (n : Nat) :
    Finds (circuit n) s fun c => s.receivers[n]? = some (.circuit c) := by
  refine (finds_receiver n).bind fun r hr => ?_
  cases r with
  | circuit c => exact finds_pure hr
  | list gs => exact finds_throw _

theorem finds_named (hs : s.Sound L ids) (name : Option String) :
    Finds (named name) s (∀ o ∈ ·, o.Sound (Qubit.Known ids)) := by
  refine finds_get.bind ?_
  rintro _ rfl
  refine finds_pure fun o ho => ?_
  obtain ⟨n, -, ho⟩ := Option.bind_eq_some_iff.mp ho
  exact hs.named_sound ho

omit [Scalar α] in
theorem finds_needReceiver (o : Option (Object α)) : Finds (needReceiver o) s fun _ => True := by
  unfold needReceiver
  split
  · exact finds_pure trivial
  · exact finds_throw _

theorem finds_datum (hs : s.Sound L ids) {o : Object α} (ho : o.Sound (Qubit.Known ids)) :
    Finds (datum o) s (Datum.Sound (Qubit.Known ids)) := by
  cases o with
  | qubit q => exact finds_pure (.qubit ho)
  | gate g => exact finds_pure (.gate ho)
  | receiver n =>
    refine (finds_receiver n).bind fun r hr => ?_
    cases r with
    | circuit c => exact finds_pure (.circuit n)
    | list gs => exact finds_pure (.gates n (hs.receiver_sound hr))

theorem finds_qubitsOf (hs : s.Sound L ids) {o : Option (Object α)}
    (ho : ∀ o' ∈ o, o'.Sound (Qubit.Known ids)) :
    Finds (qubitsOf o) s (∀ q ∈ ·, q.Known ids) := by
  unfold qubitsOf
  split
  · exact finds_pure (Gate.Sound.qubits_sound (ho _ rfl))
  · exact (finds_needReceiver _).bind fun n _ => (finds_circuit n).bind fun c hc =>
      finds_pure (Circuit.Sound.qubits_sound (hs.receiver_sound hc))

theorem finds_frame (hs : s.Sound L ids) (n : Option Nat) :
    Finds (frame n) s (∀ c ∈ ·, c.Sound (Qubit.Known ids)) := by
  cases n with
  | none => exact finds_pure (by simp)
  | some n =>
    refine (finds_receiver n).bind fun r hr => finds_pure fun c hc => ?_
    cases r with
    | circuit c' =>
      cases hc
      exact hs.receiver_sound hr
    | list gs => cases hc

end Looking

/-! ## Writing -/

section Writing

variable {L : String → Prop} {s : Session α} {ids : List String}

theorem keeps_createReceiver (hs : s.Sound L ids) {r : Sink α} (hr : r.Sound (Qubit.Known ids)) :
    Keeps L (createReceiver r) ids s fun _ n t => n = s.receivers.length ∧
      t = { s with receivers := s.receivers ++ [r] } :=
  ⟨.ok _, _, ids, returns_createReceiver r s, List.prefix_rfl, hs.add hr, yields_ok ⟨rfl, rfl⟩⟩

theorem keeps_putReceiver (hs : s.Sound L ids) (n : Nat) {r : Sink α}
    (hr : r.Sound (Qubit.Known ids)) : Keeps L (putReceiver n r) ids s fun _ _ t =>
      t = { s with receivers := s.receivers.set n r } :=
  ⟨.ok (), _, ids, returns_putReceiver n r s, List.prefix_rfl, hs.put n hr, yields_ok rfl⟩

theorem keeps_give (hs : s.Sound L ids) (name : Option String) {o : Object α}
    (ho : o.Sound (Qubit.Known ids)) : Keeps L (give name o) ids s fun _ _ _ => True := by
  cases name with
  | none => exact keeps_pure hs trivial
  | some name => exact ⟨.ok (), _, ids, rfl, List.prefix_rfl, hs.give name ho, yields_ok trivial⟩

theorem keeps_settle (hs : s.Sound L ids) (n : Nat) {outcome : Sink α × Option (Fault α)}
    (ho : outcome.1.Sound (Qubit.Known ids)) :
    Keeps L (settle n outcome) ids s fun _ _ _ => True := by
  refine (keeps_putReceiver hs n ho).bind fun ids' _ t _ ht _ => ?_
  split
  · exact keeps_throw ht _
  · exact keeps_pure ht trivial

theorem keeps_deliver (hs : s.Sound L ids) (n : Option Nat) {gs : List (Gate α)}
    (hg : ∀ g ∈ gs, g.Sound (Qubit.Known ids)) :
    Keeps L (deliver n gs) ids s fun _ _ _ => True := by
  cases n with
  | none =>
    show Keeps L (if gs.isEmpty then pure () else throw .noSuchOperation) ids s _
    split
    · exact keeps_pure hs trivial
    · exact keeps_throw hs _
  | some n =>
    refine (finds_receiver n).bind_keeps hs fun r hr => ?_
    exact keeps_settle hs n (Sink.accept_sound (hs.receiver_sound hr) hg)

/-! ## Qubits -/

theorem keeps_created (hs : s.Sound L ids) {a : Action α Qubit} {identifier : String}
    {generated : Nat} (hle : s.generated ≤ generated)
    (hid : L identifier ∨ ∃ m ≤ generated, identifier = "qb_" ++ toString m)
    (ha : Returns a s ⟨s.created, identifier⟩ { s with created := s.created + 1, generated }) :
    Keeps L a ids s fun ids' q t => q.Known ids' ∧ t.receivers = s.receivers := by
  refine ⟨.ok _, _, ids ++ [identifier], ha, List.prefix_append _ _, hs.create hle hid,
    yields_ok ⟨?_, rfl⟩⟩
  rw [hs.created_eq]
  exact Qubit.known_concat ids identifier

theorem keeps_createQubit (hs : s.Sound L ids) {label : String} (hl : L label) :
    Keeps L (createQubit label) ids s fun ids' q t =>
      q.Known ids' ∧ t.receivers = s.receivers := keeps_created hs le_rfl (Or.inl hl) rfl

theorem keeps_freshQubit (hs : s.Sound L ids) :
    Keeps L freshQubit ids s fun ids' q t => q.Known ids' ∧ t.receivers = s.receivers :=
  keeps_created hs (Nat.le_succ _) (Or.inr ⟨_, le_rfl, rfl⟩) (returns_freshQubit s)

end Writing

section Qubits

variable {L : String → Prop} {s : Session α} {ids : List String} {n : Nat}

/-- A known qubit joins a circuit, unless its identifier is taken. -/
theorem keeps_join (hs : s.Sound L ids) {c : Circuit α} (hc : s.receivers[n]? = some (.circuit c))
    {q : Qubit} (hq : q.Known ids) :
    Keeps L (do
        putReceiver n (.circuit (← c.addQubit q))
        return q : Action α Qubit) ids s fun ids' r t =>
      r.Known ids' ∧ ∀ qs, s.Holds n qs → t.Holds n (qs ++ [q]) := by
  refine (finds_ok (P := fun d => c.addQubit q = .ok d) fun _ h => h).bind_keeps hs fun d hd => ?_
  have hsound := Circuit.Sound.yields_addQubit (hs.receiver_sound hc) hq d hd
  refine (keeps_putReceiver hs n (r := .circuit d) hsound).bind fun ids' _ t hids ht h =>
    keeps_pure ht ?_
  refine ⟨hq.mono hids, ?_⟩
  rintro qs ⟨_, hc', hqs⟩
  cases hc.symm.trans hc'
  refine ⟨d, ?_, fun r hr => ?_⟩
  · rw [h]
    exact List.getElem?_set_self (List.getElem?_eq_some_iff.mp hc).1
  · rw [Circuit.qubits_addQubit hd]
    exact List.mem_append.mpr ((List.mem_append.mp hr).imp_left (hqs r))

theorem keeps_addQubit (hs : s.Sound L ids) {d : Datum α} (hd : d.Sound (Qubit.Known ids)) :
    Keeps L (addQubit n d) ids s fun ids' q t => q.Known ids' ∧
      ∀ qs, s.Holds n qs → t.Holds n (qs ++ d.qubit?.toList) := by
  refine (finds_circuit n).bind_keeps hs fun c hc => ?_
  cases hd with
  | absent =>
    have hfresh : Keeps L (Datum.qubit <$> freshQubit : Action α (Datum α)) ids s fun ids' d t =>
        ∃ q, d = .qubit q ∧ q.Known ids' ∧ t.receivers = s.receivers :=
      (keeps_freshQubit hs).map fun _ q _ hq => ⟨q, rfl, hq⟩
    refine Keeps.bind hfresh ?_
    rintro ids' _ t - ht ⟨q, rfl, hq, hr⟩
    refine (keeps_join ht (hr ▸ hc) hq).imp fun ids'' r u ⟨hr', hu⟩ => ⟨hr', fun qs hqs => ?_⟩
    obtain ⟨e, he, hmem⟩ := hu qs (by rwa [Session.Holds, hr])
    exact ⟨e, he, fun p hp => hmem p (List.mem_append_left _ (by simpa [Datum.qubit?] using hp))⟩
  | qubit hq => exact keeps_join hs hc hq
  | _ => exact keeps_throw hs _

theorem keeps_addFreshQubits (hs : s.Sound L ids) (k : Nat) :
    Keeps L (addFreshQubits n k) ids s fun _ _ _ => True := by
  induction k generalizing s ids with
  | zero => exact keeps_pure hs trivial
  | succ k ih => exact (keeps_addQubit hs .absent).bind fun _ _ _ _ ht _ => ih ht

theorem keeps_createCircuit (hs : s.Sound L ids) (size : Datum α) (name : Option String) :
    Keeps L (createCircuit size name) ids s fun _ _ _ => True := by
  have hnamed (name : String) :
      Keeps L (createCircuit size (some name)) ids s fun _ _ _ => True := by
    cases hk : size.integer? with
    | none =>
      simp only [createCircuit, hk, pure_bind]
      exact keeps_throw hs _
    | some k =>
      simp only [createCircuit, hk, pure_bind]
      refine (keeps_createReceiver hs (r := .circuit _) (Circuit.empty_sound name)).bind ?_
      intro ids' n t _ ht _
      exact (keeps_addFreshQubits ht _).bind fun _ _ _ _ hu _ => keeps_pure hu trivial
  cases name with
  | some name => exact hnamed name
  | none =>
    have hname : Finds defaultName s fun _ => True := finds_get.bind fun _ _ => finds_pure trivial
    exact hname.bind_keeps hs fun name _ => hnamed name

/-- All qubits among the controls are in the circuit once the controls have joined it. -/
theorem keeps_joinControls (hs : s.Sound L ids) {ds : List (Datum α)}
    (hd : ∀ d ∈ ds, d.Sound (Qubit.Known ids)) : Keeps L (joinControls n ds) ids s fun _ _ t =>
      ∀ qs, s.Holds n qs → t.Holds n (qs ++ ds.filterMap Datum.qubit?) := by
  induction ds generalizing s ids with
  | nil => exact keeps_pure hs (by simp)
  | cons d ds ih =>
    obtain ⟨hd, hds⟩ := List.forall_mem_cons.mp hd
    -- The control `d` is in the circuit when the others are about to join.
    have hrest {ids' : List String} {t : Session α} (hids : ids <+: ids') (ht : t.Sound L ids')
        (hjoined : ∀ qs, s.Holds n qs → t.Holds n (qs ++ d.qubit?.toList)) :
        Keeps L (joinControls n ds) ids' t fun _ _ u =>
          ∀ qs, s.Holds n qs → u.Holds n (qs ++ (d :: ds).filterMap Datum.qubit?) := by
      refine (ih ht fun e he => (hds e he).mono fun q hq => hq.mono hids).imp ?_
      intro _ _ u hu qs hqs
      have hall := hu _ (hjoined qs hqs)
      rw [List.append_assoc] at hall
      cases hq : d.qubit? <;> simpa [hq, List.filterMap_cons] using hall
    have hadd : Keeps L (do
        let _ ← addQubit n d
        joinControls n ds) ids s fun _ _ t =>
          ∀ qs, s.Holds n qs → t.Holds n (qs ++ (d :: ds).filterMap Datum.qubit?) :=
      (keeps_addQubit hs hd).bind fun _ _ _ hids ht h => hrest hids ht h.2
    refine (finds_circuit n).bind_keeps hs fun c hc => ?_
    cases hd with
    | @qubit q _ =>
      by_cases hq : q ∈ c.qubits
      · have hjoined : ∀ qs, s.Holds n qs → s.Holds n (qs ++ [q]) := by
          rintro qs ⟨c', hc', hqs⟩
          cases hc.symm.trans hc'
          exact ⟨c, hc, List.forall_mem_append.mpr ⟨hqs, List.forall_mem_singleton.mpr hq⟩⟩
        simpa [hq] using hrest List.prefix_rfl hs hjoined
      · simpa [hq] using hadd
    | _ => exact hadd

end Qubits

/-! ## Circuits, environments and synthesis -/

section Operations

variable {L : String → Prop} {s : Session α} {ids : List String}

/-- The gates under controls are on the qubits that have joined. -/
theorem keeps_deriveControlled (hs : s.Sound L ids) {c : Circuit α} (hc : c.Sound (Qubit.Known ids))
    {controls : Datum α} (hd : controls.Sound (Qubit.Known ids)) :
    Keeps L (deriveControlled c controls) ids s fun _ _ _ => True := by
  unfold deriveControlled
  split
  · rename_i ds hds
    have hds := hd.qubitItems? hds
    refine (finds_pure (P := (· = ds)) rfl).bind_keeps hs ?_
    rintro _ rfl
    refine (keeps_createReceiver hs (r := .circuit c.clear) hc.clear).bind ?_
    rintro ids₁ n t hids₁ ht ⟨rfl, hcreated⟩
    have hheld : t.Holds s.receivers.length c.qubits := by
      refine ⟨c.clear, ?_, fun _ hq => hq⟩
      rw [hcreated]
      exact List.getElem?_concat_length
    refine (keeps_joinControls ht fun e he => (hds e he).mono fun q hq => hq.mono hids₁).bind ?_
    intro ids₂ _ u _ hu hjoined
    refine (finds_ok (P := (Sequence.controlBy _ c.gates = .ok ·)) fun _ h => h).bind_keeps hu ?_
    intro gs hgs
    refine (finds_circuit _).bind_keeps hu fun d hd => ?_
    obtain ⟨_, hd', hmem⟩ := hjoined c.qubits hheld
    cases hd.symm.trans hd'
    obtain ⟨hqs, hcs⟩ := List.forall_mem_append.mp hmem
    have hsound := Sequence.yields_controlBy (P := (· ∈ d.qubits)) hcs
      (fun g hg => ⟨hc.gate_wellFormed g hg, fun q hq => hqs q (hc.gate_qubits g hg q hq)⟩) gs hgs
    have hd : d.Sound (Qubit.Known ids₂) := hu.receiver_sound hd
    have hput : { d with gates := gs }.Sound (Qubit.Known ids₂) :=
      ⟨⟨hd.identifiers_nodup, fun g hg => (hsound g hg).toWellFormed,
        fun g hg => (hsound g hg).qubits_sound⟩, hd.qubits_sound⟩
    exact (keeps_putReceiver hu _ (r := .circuit _) hput).bind fun _ _ _ _ hv _ =>
      keeps_pure hv trivial
  · exact (finds_throw (P := fun _ => False) _).bind_keeps hs fun _ h => h.elim

theorem keeps_derive (hs : s.Sound L ids) (n : Nat) {how : Derivation α}
    (hh : how.Sound (Qubit.Known ids)) : Keeps L (derive n how) ids s fun _ _ _ => True := by
  have hcreate {r : Sink α} (hr : r.Sound (Qubit.Known ids)) :
      Keeps L (createReceiver r) ids s fun _ _ _ => True :=
    (keeps_createReceiver hs hr).imp fun _ _ _ _ => trivial
  refine (finds_receiver n).bind_keeps hs fun r hr => ?_
  have hr := hs.receiver_sound hr
  cases r with
  | list gs =>
    cases how with
    | copy => exact hcreate hr
    | _ => exact keeps_throw hs _
  | circuit c =>
    have hc : c.Sound (Qubit.Known ids) := hr
    cases how with
    | copy => exact hcreate hr
    | clear => exact hcreate (r := .circuit _) hc.clear
    | inverse => exact hcreate (r := .circuit _) hc.inverse
    | control controls => exact keeps_deriveControlled hs hc hh

theorem keeps_extend (hs : s.Sound L ids) (n : Nat) (other : Option Nat) (w : Option (Wiring α)) :
    Keeps L (extend n other w) ids s fun _ _ _ => True := by
  refine (finds_receiver n).bind_keeps hs fun r hr => ?_
  have hr := hs.receiver_sound hr
  cases r with
  | circuit c =>
    have hc : c.Sound (Qubit.Known ids) := hr
    cases other with
    | none => exact keeps_throw hs _
    | some m =>
      refine (finds_circuit m).bind_keeps hs fun d hd => ?_
      have hd : d.Sound (Qubit.Known ids) := hs.receiver_sound hd
      refine keeps_settle hs n ?_
      show Circuit.Sound _ _
      split
      · exact Circuit.extendItself_sound w _ hc.gate_wellFormed hc
      · exact Circuit.extend_sound w hd.gate_wellFormed hc
  | list gs =>
    cases other with
    | none => exact keeps_throw hs _
    | some m =>
      refine (finds_receiver m).bind_keeps hs fun t ht => ?_
      have ht := hs.receiver_sound ht
      cases t with
      | circuit c => exact keeps_throw hs _
      | list hs' =>
        cases w with
        | some w => exact keeps_throw hs _
        | none =>
          exact (keeps_putReceiver hs n (r := .list _) (List.forall_mem_append.mpr ⟨hr, ht⟩)).imp
            fun _ _ _ _ => trivial

theorem keeps_leave (hs : s.Sound L ids) {e : Environment α} (he : e.Sound (Qubit.Known ids))
    (buffer : Nat) (outer : Option Nat) :
    Keeps L (leave e buffer outer) ids s fun _ _ _ => True := by
  refine (finds_receiver buffer).bind_keeps hs fun r hr => ?_
  have hg := Environment.yields_transform he fun g => (hs.receiver_sound hr).gate_sound
  exact (finds_ok hg).bind_keeps hs fun gs hgs => keeps_deliver hs outer hgs

theorem keeps_synthesize (hs : s.Sound L ids)
    {gates : Option (Circuit α) → Except (Fault α) (List (Gate α))} (n : Option Nat)
    (hg : ∀ frame, (∀ c ∈ frame, c.Sound (Qubit.Known ids)) →
      Yields (∀ g ∈ ·, g.Sound (Qubit.Known ids)) (gates frame)) :
    Keeps L (synthesize gates n) ids s fun _ _ _ => True :=
  (finds_frame hs n).bind_keeps hs fun frame hf => (finds_ok (hg frame hf)).bind_keeps hs
    fun _ hgs => keeps_deliver hs n hgs

theorem keeps_prepareInto (hs : s.Sound L ids) {p : Preparation α} (n : Option Nat)
    (hr : p.register.Sound (Qubit.Known ids)) (hc : p.controls.Sound (Qubit.Known ids)) :
    Keeps L (prepareInto p n) ids s fun _ _ _ => True := by
  refine (finds_frame hs n).bind_keeps hs fun frame hf => ?_
  refine (finds_ok (Preparation.yields_gates? hf p hr hc)).bind_keeps hs fun gs? hgs => ?_
  cases gs? with
  | none => exact keeps_pure hs trivial
  | some gs =>
    exact (keeps_deliver hs n (hgs gs rfl)).bind fun _ _ _ _ ht _ => keeps_pure ht trivial

theorem keeps_prepare (hs : s.Sound L ids) {p : Preparation α} (given : Option (Object α))
    (hr : p.register.Sound (Qubit.Known ids)) (hc : p.controls.Sound (Qubit.Known ids)) :
    Keeps L (prepare p given) ids s fun _ _ _ => True := by
  refine (finds_ok (P := fun _ => True) fun _ _ => trivial).bind_keeps hs fun _ _ => ?_
  cases given with
  | some o =>
    exact (keeps_prepareInto hs _ hr hc).bind fun _ _ _ _ ht _ => keeps_pure ht trivial
  | none =>
    have hname : Finds defaultName s fun _ => True := finds_get.bind fun _ _ => finds_pure trivial
    refine hname.bind_keeps hs fun name _ => ?_
    refine (finds_ok (Preparation.yields_freshCircuit p name hr hc)).bind_keeps hs fun c hcs => ?_
    refine (keeps_createReceiver hs (r := .circuit c) hcs).bind fun ids' n t hids ht _ => ?_
    have hmono (q : Qubit) (hq : q.Known ids) := hq.mono hids
    exact (keeps_prepareInto ht _ (hr.mono hmono) (hc.mono hmono)).bind fun _ _ _ _ hu _ =>
      keeps_pure hu trivial

theorem keeps_prepareState (hs : s.Sound L ids) (vector : List (Cartesian α)) {register : Datum α}
    (hr : register.Sound (Qubit.Known ids)) (given : Option (Object α)) (tolerance : Option α) :
    Keeps L (prepareState vector register given tolerance) ids s fun _ _ _ => True := by
  -- The register is put together from qubits of a circuit that has been there, or is new.
  have hqubits {ids' : List String} {t : Session α} (ht : t.Sound L ids') {n : Nat} {c : Circuit α}
      (hc : t.receivers[n]? = some (.circuit c)) {qs : List Qubit} (hqs : ∀ q ∈ qs, q ∈ c.qubits) :
      (Datum.list (qs.map Datum.qubit) : Datum α).Sound (Qubit.Known ids') := by
    refine .list fun d hd => ?_
    obtain ⟨q, hq, rfl⟩ := List.mem_map.mp hd
    exact .qubit (Circuit.Sound.qubits_sound (ht.receiver_sound hc) q (hqs q hq))
  refine keeps_guard hs ?_
  refine finds_get.bind_keeps hs fun _ _ => ?_
  split
  · refine (keeps_createCircuit hs _ _).bind fun ids' n t _ ht _ => ?_
    refine (finds_circuit n).bind_keeps ht fun c hc => ?_
    exact (keeps_prepare ht _ (hqubits ht hc fun _ hq => hq) (.list (by simp))).bind
      fun _ _ _ _ hu _ => keeps_pure hu trivial
  · refine (finds_needReceiver _).bind_keeps hs fun n _ => ?_
    refine (finds_circuit n).bind_keeps hs fun before _ => ?_
    refine (keeps_addFreshQubits hs _).bind fun ids' _ t _ ht _ => ?_
    refine (finds_circuit n).bind_keeps ht fun c hc => ?_
    exact keeps_prepare ht _ (hqubits ht hc fun _ hq => List.mem_of_mem_drop hq)
      (.list (by simp))
  · exact keeps_prepare hs _ hr (.list (by simp))

end Operations

end Action

end StateSynthesis
