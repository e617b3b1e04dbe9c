import Mathlib
import StateSynthesis.Proofs.Handover
import StateSynthesis.Proofs.Support
import StateSynthesis.Session.Synthesis

/-!
Actions that return. Fresh qubits have different identifiers (`nodup_fresh`), so a circuit takes in
any number of them if it has none of these (`returns_addFreshQubits`). A delivery returns if the
receiver takes all gates (`returns_deliver`), and so does a preparation (`returns_prepare`). A
vector is prepared in the given register (`prepareState_register`) or in fresh qubits
(`prepareState_fresh`).
-/
namespace StateSynthesis

variable {α β γ : Type}

/-! ## Actions in sequence -/

namespace Action

/-- The action, started in the session `s`, returns `b` and leaves the session `t`. -/
def Returns (a : Action α β) (s : Session α) (b : β) (t : Session α) : Prop :=
  a.run.run s = (.ok b, t)

variable {s t u : Session α} {b : β} {c : γ}

theorem returns_pure (b : β) (s : Session α) : Returns (pure b) s b s := rfl

/-- What is left to run once the first action has returned. -/
theorem Returns.run_bind {a : Action α β} (ha : Returns a s b t) (f : β → Action α γ) :
    (a >>= f).run.run s = (f b).run.run t := by
  unfold Returns at ha
  rw [ExceptT.run_bind]
  show StateT.run (a.run >>= _) s = _
  rw [StateT.run_bind, ha]
  rfl

theorem Returns.bind {a : Action α β} {f : β → Action α γ} (ha : Returns a s b t)
    (hf : Returns (f b) t c u) : Returns (a >>= f) s c u := (ha.run_bind f).trans hf

theorem Returns.map {a : Action α β} (ha : Returns a s b t) (f : β → γ) :
    Returns (f <$> a) s (f b) t := by
  unfold Returns at *
  rw [ExceptT.run_map, StateT.run_map, ha]
  rfl

/-- The action, started in the session `s`, fails with `f` and leaves the session `t`. -/
def Fails (a : Action α β) (s : Session α) (f : Fault α) (t : Session α) : Prop :=
  a.run.run s = (.error f, t)

theorem Fails.unique {f e : Fault α} {a : Action α β} (hf : Fails a s f t) (he : Fails a s e u) :
    f = e ∧ t = u := by
  have heq : (Except.error f, t) = ((Except.error e, u) : Except (Fault α) β × Session α) :=
    hf.symm.trans he
  simpa using heq

theorem Returns.unique {d : β} {a : Action α β} (hb : Returns a s b t) (hd : Returns a s d u) :
    b = d ∧ t = u := by
  have heq : (Except.ok b, t) = ((Except.ok d, u) : Except (Fault α) β × Session α) :=
    hb.symm.trans hd
  simpa using heq

theorem Returns.not_fails {f : Fault α} {a : Action α β} (hr : Returns a s b t) :
    ¬ Fails a s f u := by
  intro hf
  have heq : (Except.ok b, t) = ((Except.error f, u) : Except (Fault α) β × Session α) :=
    hr.symm.trans hf
  simp at heq

theorem Fails.bind {f : Fault α} {a : Action α β} (ha : Fails a s f t) (g : β → Action α γ) :
    Fails (a >>= g) s f t := by
  unfold Fails at *
  rw [ExceptT.run_bind]
  show StateT.run (a.run >>= _) s = _
  rw [StateT.run_bind, ha]
  rfl

theorem Returns.bind_fails {f : Fault α} {a : Action α β} {g : β → Action α γ}
    (ha : Returns a s b t) (hg : Fails (g b) t f u) : Fails (a >>= g) s f u :=
  (ha.run_bind g).trans hg

theorem Returns.exists_of_bind {a : Action α β} {f : β → Action α γ}
    (h : Returns (a >>= f) s c u) : ∃ b t, Returns a s b t ∧ Returns (f b) t c u := by
  cases ha : a.run.run s with
  | mk result t =>
    cases result with
    | error e => exact absurd (Fails.bind ha f) h.not_fails
    | ok b => exact ⟨b, t, ha, (Returns.run_bind ha f).symm.trans h⟩

theorem fails_throw (f : Fault α) (s : Session α) : Fails (throw f : Action α β) s f s := rfl

theorem fails_error {e : Except (Fault α) β} {f : Fault α} (h : e = .error f) (s : Session α) :
    Fails (liftM e) s f s := by
  subst h
  rfl

theorem returns_get (s : Session α) : Returns get s s s := rfl

theorem returns_ok {e : Except (Fault α) β} (h : e = .ok b) (s : Session α) :
    Returns (liftM e) s b s := by
  subst h
  rfl

theorem Returns.eq_ok {e : Except (Fault α) β} (h : Returns (liftM e) s b t) :
    e = .ok b ∧ s = t := by
  cases e with
  | error f => exact absurd (fails_error rfl s) h.not_fails
  | ok c =>
    obtain ⟨rfl, rfl⟩ := (returns_ok rfl s).unique h
    exact ⟨rfl, rfl⟩

theorem returns_createReceiver (r : Sink α) (s : Session α) :
    Returns (createReceiver r) s s.receivers.length
      { s with receivers := s.receivers ++ [r] } := rfl

theorem returns_putReceiver (n : Nat) (r : Sink α) (s : Session α) :
    Returns (putReceiver n r) s () { s with receivers := s.receivers.set n r } := rfl

theorem returns_receiver {n : Nat} {r : Sink α} (h : s.receivers[n]? = some r) :
    Returns (receiver n) s r s := by
  refine (returns_get s).bind ?_
  rw [h]
  exact returns_pure r s

theorem returns_circuit {n : Nat} {c : Circuit α} (h : s.receivers[n]? = some (.circuit c)) :
    Returns (circuit n) s c s := (returns_receiver h).bind (returns_pure c s)

end Action

theorem Session.set_receiver_self {s : Session α} {n : Nat} {r : Sink α}
    (h : s.receivers[n]? = some r) : { s with receivers := s.receivers.set n r } = s := by
  obtain ⟨hn, he⟩ := List.getElem?_eq_some_iff.mp h
  rw [← he, List.set_getElem_self]

theorem Session.set_extended_nil {s : Session α} {n : Nat} {r : Sink α}
    (h : s.receivers[n]? = some r) :
    { s with receivers := s.receivers.set n (r.extended []) } = s := by
  rw [Sink.extended_nil, set_receiver_self h]

namespace Action

variable {s : Session α}

/-! ## Fresh qubits -/

/-- The next `k` fresh qubits after the given numbers of tokens and identifiers. -/
def fresh (created generated : Nat) : Nat → List Qubit
  | 0 => []
  | k + 1 => ⟨created, "qb_" ++ toString (generated + 1)⟩ :: fresh (created + 1) (generated + 1) k

theorem length_fresh (created generated k : Nat) : (fresh created generated k).length = k := by
  induction k generalizing created generated with
  | zero => rfl
  | succ k ih => simp [fresh, ih]

theorem mem_fresh {created generated k : Nat} {q : Qubit} (h : q ∈ fresh created generated k) :
    ∃ m, generated < m ∧ q.identifier = "qb_" ++ toString m := by
  induction k generalizing created generated with
  | zero => simp [fresh] at h
  | succ k ih =>
    rcases List.mem_cons.mp h with rfl | h
    · exact ⟨generated + 1, Nat.lt_succ_self _, rfl⟩
    · obtain ⟨m, hm, hq⟩ := ih h
      exact ⟨m, by omega, hq⟩

theorem madeUp_injective : Function.Injective fun m : Nat => "qb_" ++ toString m := by
  intro a b h
  simp only [String.append_right_inj, Nat.toString_eq_repr] at h
  exact Nat.repr_injective h

theorem nodup_fresh (created generated k : Nat) :
    ((fresh created generated k).map Qubit.identifier).Nodup := by
  induction k generalizing created generated with
  | zero => exact List.nodup_nil
  | succ k ih =>
    refine List.nodup_cons.mpr ⟨fun hmem => ?_, ih _ _⟩
    obtain ⟨q, hq, he⟩ := List.mem_map.mp hmem
    obtain ⟨m, hm, hq'⟩ := mem_fresh hq
    have := madeUp_injective (hq'.symm.trans he)
    omega

theorem returns_freshQubit (s : Session α) :
    Returns freshQubit s ⟨s.created, "qb_" ++ toString (s.generated + 1)⟩
      { s with created := s.created + 1, generated := s.generated + 1 } := rfl

theorem returns_addQubit_absent {n : Nat} {c : Circuit α}
    (h : s.receivers[n]? = some (.circuit c))
    (hid : "qb_" ++ toString (s.generated + 1) ∉ c.qubits.map Qubit.identifier) :
    Returns (addQubit n .absent) s ⟨s.created, "qb_" ++ toString (s.generated + 1)⟩
      { s with
        created := s.created + 1
        generated := s.generated + 1
        receivers := s.receivers.set n (.circuit { c with
          qubits := c.qubits ++ [⟨s.created, "qb_" ++ toString (s.generated + 1)⟩] }) } := by
  refine (returns_circuit h).bind ?_
  refine ((returns_freshQubit s).map Datum.qubit).bind ?_
  refine (returns_ok (if_neg hid) _).bind ?_
  exact (returns_putReceiver n _ _).bind (returns_pure _ _)

end Action

/-- The session in which the circuit `c` under `n` has the next `gained` fresh qubits as well, and
`used` fresh qubits have been made. -/
def Session.allotted (s : Session α) (n : Nat) (c : Circuit α) (gained used : Nat) : Session α :=
  { s with
    created := s.created + used
    generated := s.generated + used
    receivers := s.receivers.set n (.circuit { c with
      qubits := c.qubits ++ Action.fresh s.created s.generated gained }) }

/-- The identifiers of the next `k` fresh qubits are not taken in the circuit. -/
def Session.Free (s : Session α) (c : Circuit α) (k : Nat) : Prop :=
  ∀ q ∈ Action.fresh s.created s.generated k, q.identifier ∉ c.qubits.map Qubit.identifier

namespace Session

variable {s : Session α} {n : Nat} {c : Circuit α}

theorem allotted_receiver (h : s.receivers[n]? = some (.circuit c)) (gained used : Nat) :
    (s.allotted n c gained used).receivers[n]? = some (.circuit { c with
      qubits := c.qubits ++ Action.fresh s.created s.generated gained }) :=
  List.getElem?_set_self (List.getElem?_eq_some_iff.mp h).1

theorem free_of_nodup {k : Nat}
    (hid : ((c.qubits ++ Action.fresh s.created s.generated k).map Qubit.identifier).Nodup) :
    s.Free c k := by
  rw [List.map_append] at hid
  exact fun q hq hmem => (List.nodup_append.mp hid).2.2 _ hmem _ (List.mem_map_of_mem hq) rfl

end Session

namespace Action

variable {s : Session α}

/-- A circuit takes in fresh qubits as long as their identifiers are not taken. -/
theorem returns_addFreshQubits (n k : Nat) {c : Circuit α}
    (h : s.receivers[n]? = some (.circuit c)) (hfree : s.Free c k) :
    Returns (addFreshQubits n k) s () (s.allotted n c k k) := by
  induction k generalizing s c with
  | zero =>
    simp only [Session.allotted, fresh, List.append_nil, Nat.add_zero, Session.set_receiver_self h]
    exact returns_pure () s
  | succ k ih =>
    have hn : n < s.receivers.length := (List.getElem?_eq_some_iff.mp h).1
    obtain ⟨hfirst, hrest⟩ := List.forall_mem_cons.mp hfree
    have hnodup := (List.nodup_cons.mp (nodup_fresh s.created s.generated (k + 1))).1
    refine (returns_addQubit_absent h hfirst).bind ?_
    -- The first fresh qubit takes none of the identifiers of the others.
    have hadded := ih (s := { s with
        created := s.created + 1
        generated := s.generated + 1
        receivers := s.receivers.set n (.circuit { c with
          qubits := c.qubits ++ [⟨s.created, "qb_" ++ toString (s.generated + 1)⟩] }) })
      (List.getElem?_set_self hn) fun q hq hmem => by
        rw [List.map_append, List.mem_append] at hmem
        rcases hmem with hmem | hmem
        · exact hrest q hq hmem
        · exact hnodup (List.mem_map.mpr ⟨q, hq, List.mem_singleton.mp hmem⟩)
    simp only [Session.allotted, List.set_set, List.append_assoc, List.singleton_append,
      Nat.add_assoc, Nat.add_comm 1 k] at hadded
    exact hadded

theorem returns_defaultName (s : Session α) :
    Returns defaultName s ("circuit_" ++ toString s.receivers.length) s :=
  (returns_get s).bind (returns_pure _ s)

theorem returns_createCircuit (k : Nat) (s : Session α) :
    Returns (createCircuit (.integer k) none) s s.receivers.length { s with
      created := s.created + k
      generated := s.generated + k
      receivers := s.receivers ++ [.circuit ⟨"circuit_" ++ toString s.receivers.length,
        fresh s.created s.generated k, []⟩] } := by
  refine (returns_defaultName s).bind ?_
  refine (returns_createReceiver _ s).bind ?_
  have hset (r r' : Sink α) : (s.receivers ++ [r]).set s.receivers.length r' =
      s.receivers ++ [r'] := by simp
  have hadd := returns_addFreshQubits (s := { s with
      receivers := s.receivers ++
        [.circuit (Circuit.empty ("circuit_" ++ toString s.receivers.length))] })
    s.receivers.length k List.getElem?_concat_length
    (Session.free_of_nodup (nodup_fresh s.created s.generated k))
  rw [Session.allotted, hset] at hadd
  exact hadd.bind (returns_pure _ _)

/-! ## Delivering gates -/

theorem returns_deliver {n : Nat} {r : Sink α} (h : s.receivers[n]? = some r) {gs : List (Gate α)}
    (hgs : ∀ g ∈ gs, r.Takes g) : Returns (deliver (some n) gs) s ()
      { s with receivers := s.receivers.set n (r.extended gs) } := by
  refine (returns_receiver h).bind ?_
  rw [Sink.accept_of_takes hgs]
  exact (returns_putReceiver n _ s).bind (returns_pure () _)

theorem fails_deliver {n : Nat} {r : Sink α} (h : s.receivers[n]? = some r)
    {taken rest : List (Gate α)} {g : Gate α} {f : Fault α} (ht : ∀ k ∈ taken, r.Takes k)
    (hg : r.append g = .error f) : Fails (deliver (some n) (taken ++ g :: rest)) s f
      { s with receivers := s.receivers.set n (r.extended taken) } := by
  refine (returns_receiver h).bind_fails ?_
  rw [Sink.accept_of_refused ht hg]
  exact (returns_putReceiver n _ s).bind_fails (fails_throw f _)

theorem returns_frame {n : Nat} {r : Sink α} (h : s.receivers[n]? = some r) :
    Returns (frame (some n)) s r.circuit? s := (returns_receiver h).bind (returns_pure _ s)

variable [Scalar α]

omit [Scalar α] in
theorem returns_synthesize {gates : Option (Circuit α) → Except (Fault α) (List (Gate α))} {n : Nat}
    {r : Sink α} (h : s.receivers[n]? = some r) {gs : List (Gate α)}
    (hg : gates r.circuit? = .ok gs) (ht : ∀ g ∈ gs, r.Takes g) :
    Returns (synthesize gates (some n)) s ()
      { s with receivers := s.receivers.set n (r.extended gs) } :=
  (returns_frame h).bind ((returns_ok hg s).bind (returns_deliver h ht))

omit [Scalar α] in
theorem fails_synthesize {gates : Option (Circuit α) → Except (Fault α) (List (Gate α))} {n : Nat}
    {r : Sink α} (h : s.receivers[n]? = some r) {f : Fault α} (hg : gates r.circuit? = .error f) :
    Fails (synthesize gates (some n)) s f s :=
  (returns_frame h).bind_fails ((fails_error hg s).bind _)

/-- A preparation hands over its gates, without a warning. -/
theorem returns_prepare {p : Preparation α} (hτ : Tolerance.check p.tolerance = .ok ()) {n : Nat}
    {r : Sink α} (h : s.receivers[n]? = some r) {gs : List (Gate α)}
    (hp : p.gates? r.circuit? = .ok (some gs)) (hgs : ∀ g ∈ gs, r.Takes g) :
    Returns (prepare p (some (.receiver n))) s (none, false)
      { s with receivers := s.receivers.set n (r.extended gs) } := by
  have hinto : Returns (prepareInto p (some n)) s false _ :=
    (returns_frame h).bind ((returns_ok hp s).bind
      ((returns_deliver h hgs).bind (returns_pure false _)))
  exact (returns_ok hτ s).bind (hinto.bind (returns_pure _ _))

/-- A vector of zeros is worth a warning. -/
theorem returns_prepare_zero {p : Preparation α} (hτ : Tolerance.check p.tolerance = .ok ())
    {n : Nat} {r : Sink α} (h : s.receivers[n]? = some r) (hp : p.gates? r.circuit? = .ok none) :
    Returns (prepare p (some (.receiver n))) s (none, true) s := by
  have hinto : Returns (prepareInto p (some n)) s true s :=
    (returns_frame h).bind ((returns_ok hp s).bind (returns_pure true s))
  exact (returns_ok hτ s).bind (hinto.bind (returns_pure _ _))

theorem fails_prepare {p : Preparation α} {n : Nat} {r : Sink α} (h : s.receivers[n]? = some r)
    {f : Fault α} (hf : Tolerance.check p.tolerance = .error f ∨
      Tolerance.check p.tolerance = .ok () ∧ p.gates? r.circuit? = .error f) :
    Fails (prepare p (some (.receiver n))) s f s := by
  rcases hf with hτ | ⟨hτ, hp⟩
  · exact (fails_error hτ s).bind _
  · have hinto : Fails (prepareInto p (some n)) s f s :=
      (returns_frame h).bind_fails ((fails_error hp s).bind _)
    exact (returns_ok hτ s).bind_fails (hinto.bind _)

/-! ## Preparing vectors -/

section Vectors

variable {v : List (Cartesian α)} {d : Datum α} {tolerance : Option α}

/-- With a register the vector is prepared in it. -/
theorem prepareState_register (hv : v ≠ []) (hd : d ≠ .absent) (given : Option (Object α))
    (s : Session α) : (prepareState v d given tolerance).run.run s =
      (prepare (.ofComplex (tolerance.getD s.defaultTolerance) v d) given).run.run s := by
  have hempty : v.isEmpty = false := by simpa using hv
  unfold prepareState
  simp only [hempty, Bool.false_eq_true, ↓reduceIte]
  refine ((returns_get s).run_bind _).trans ?_
  cases d with
  | absent => exact absurd rfl hd
  | _ => rfl

variable {n : Nat} {c : Circuit α}

/-- Without a register it is prepared in fresh qubits, once they are in the circuit. -/
theorem prepareState_absent (h : s.receivers[n]? = some (.circuit c)) (hv : v ≠ []) :
    (prepareState v .absent (some (.receiver n)) tolerance).run.run s = (do
      addFreshQubits n (Preparation.registerSize v.length)
      let qubits := ((← circuit n).qubits.drop c.qubits.length).map Datum.qubit
      prepare (.ofComplex (tolerance.getD s.defaultTolerance) v (.list qubits))
        (some (.receiver n)) : Action α _).run.run s := by
  have hempty : v.isEmpty = false := by simpa using hv
  unfold prepareState
  simp only [hempty, Bool.false_eq_true, ↓reduceIte]
  refine ((returns_get s).run_bind _).trans ?_
  exact ((returns_pure n s).run_bind _).trans ((returns_circuit h).run_bind _)

theorem prepareState_fresh (h : s.receivers[n]? = some (.circuit c)) (hv : v ≠ [])
    (hfree : s.Free c (Preparation.registerSize v.length)) :
    (prepareState v .absent (some (.receiver n)) tolerance).run.run s =
      (prepare (.ofComplex (tolerance.getD s.defaultTolerance) v
          (.list ((fresh s.created s.generated (Preparation.registerSize v.length)).map .qubit)))
          (some (.receiver n))).run.run
        (s.allotted n c (Preparation.registerSize v.length)
          (Preparation.registerSize v.length)) := by
  rw [prepareState_absent h hv]
  refine ((returns_addFreshQubits n _ h hfree).run_bind _).trans ?_
  refine ((returns_circuit (Session.allotted_receiver h _ _)).run_bind _).trans ?_
  rw [List.drop_left]

end Vectors

end Action

theorem Sequence.On.takes [Scalar α] {r : Sink α} {qs : List Qubit} {gs : List (Gate α)}
    (h : On qs gs) (hqs : ∀ c ∈ r.circuit?, ∀ q ∈ qs, q ∈ c.qubits) : ∀ g ∈ gs, r.Takes g :=
  fun g hg c hc q hq => hqs c hc q ((h g hg).qubits_mem q hq)

end StateSynthesis
