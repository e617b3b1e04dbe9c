import StateSynthesis.Proofs.ExactPreparation
import StateSynthesis.Proofs.Thinning

/-!
What a failed preparation of a vector leaves behind. Given a register, it checks everything first
and changes nothing. Without a register it adds fresh qubits to the circuit before it looks at the
tolerance, and one by one: a tolerance that is refused leaves all of them, an identifier that is
taken those before it. Gates are never left behind. Main statement: `prepareState_failure`.
-/
namespace StateSynthesis

open StateSynthesis.Action

variable {α : Type}

/-! ## Fresh qubits -/

theorem Action.fresh_concat (created generated k : Nat) : fresh created generated (k + 1) =
    fresh created generated k ++ [⟨created + k, "qb_" ++ toString (generated + k + 1)⟩] := by
  induction k generalizing created generated with
  | zero => rfl
  | succ k ih =>
    rw [fresh, ih, fresh, List.cons_append]
    simp only [Nat.add_assoc, Nat.add_comm 1]

/-- After `k` fresh qubits the identifier of the next one is taken in the circuit. -/
structure Session.Clashes (s : Session α) (c : Circuit α) (k : Nat) : Prop where
  free : s.Free c k
  taken : "qb_" ++ toString (s.generated + k + 1) ∈ c.qubits.map Qubit.identifier

namespace Action

variable {s : Session α} {n : Nat} {c : Circuit α}

theorem free_or_clashes (s : Session α) (c : Circuit α) (k : Nat) :
    s.Free c k ∨ ∃ j < k, s.Clashes c j := by
  induction k with
  | zero => exact Or.inl (by simp [Session.Free, fresh])
  | succ k ih =>
    rcases ih with hfree | ⟨j, hj, hclash⟩
    · by_cases htaken : "qb_" ++ toString (s.generated + k + 1) ∈ c.qubits.map Qubit.identifier
      · exact Or.inr ⟨k, Nat.lt_succ_self k, hfree, htaken⟩
      · refine Or.inl ?_
        rw [Session.Free, fresh_concat]
        exact List.forall_mem_append.mpr ⟨hfree, List.forall_mem_singleton.mpr htaken⟩
    · exact Or.inr ⟨j, Nat.lt_succ_of_lt hj, hclash⟩

theorem fails_addQubit_absent (h : s.receivers[n]? = some (.circuit c))
    (htaken : "qb_" ++ toString (s.generated + 1) ∈ c.qubits.map Qubit.identifier) :
    Fails (addQubit n .absent) s (.identifierTaken ("qb_" ++ toString (s.generated + 1)))
      { s with created := s.created + 1, generated := s.generated + 1 } := by
  refine (returns_circuit h).bind_fails ?_
  refine ((returns_freshQubit s).map Datum.qubit).bind_fails ?_
  exact (fails_error (if_pos htaken) _).bind _

theorem addFreshQubits_add (n k j : Nat) :
    (addFreshQubits n (k + j) : Action α Unit) =
      addFreshQubits n k >>= fun _ => addFreshQubits n j := by
  induction k with
  | zero => rw [Nat.zero_add, addFreshQubits, pure_bind]
  | succ k ih => rw [Nat.succ_add, addFreshQubits, addFreshQubits, ih, bind_assoc]

/-- The qubits before the clash stay in the circuit. -/
theorem fails_addFreshQubits (h : s.receivers[n]? = some (.circuit c)) {k size : Nat}
    (hk : k < size) (hclash : s.Clashes c k) : Fails (addFreshQubits n size) s
      (.identifierTaken ("qb_" ++ toString (s.generated + k + 1))) (s.allotted n c k (k + 1)) := by
  obtain ⟨j, rfl⟩ := Nat.exists_eq_add_of_lt hk
  rw [Nat.add_assoc, addFreshQubits_add]
  have hn : n < s.receivers.length := (List.getElem?_eq_some_iff.mp h).1
  refine (returns_addFreshQubits n k h hclash.free).bind_fails ?_
  have htaken : "qb_" ++ toString (s.generated + k + 1) ∈
      (c.qubits ++ fresh s.created s.generated k).map Qubit.identifier := by
    rw [List.map_append]
    exact List.mem_append_left _ hclash.taken
  exact (fails_addQubit_absent (s := s.allotted n c k k) (List.getElem?_set_self hn)
    htaken).bind _

variable [Scalar α]

/-! ## Preparing in a circuit -/

variable {v : List (Cartesian α)}

/-- A preparation in a receiver returns, or its checks refuse it. -/
theorem returns_prepare_or_refused {p : Preparation α} {r : Sink α}
    (h : s.receivers[n]? = some r) :
    (∃ b t, Returns (prepare p (some (.receiver n))) s b t) ∨
      ∃ f, Tolerance.check p.tolerance = .error f ∨
        Tolerance.check p.tolerance = .ok () ∧ p.gates? r.circuit? = .error f := by
  cases hτ : Tolerance.check p.tolerance with
  | error f => exact Or.inr ⟨f, Or.inl rfl⟩
  | ok =>
    cases hp : p.gates? r.circuit? with
    | error f => exact Or.inr ⟨f, Or.inr ⟨rfl, rfl⟩⟩
    | ok gs? =>
      cases gs? with
      | none => exact Or.inl ⟨_, _, returns_prepare_zero hτ h hp⟩
      | some gs =>
        exact Or.inl ⟨_, _, returns_prepare hτ h hp (Preparation.takes_of_gates? hp)⟩

/-- Fresh qubits of the circuit make a register that holds the vector. -/
theorem exists_gates?_fresh {register : List Qubit} {created generated : Nat} {τ : α}
    (hf : register = fresh created generated (Preparation.registerSize v.length))
    (hc : ∀ q ∈ register, q ∈ c.qubits) :
    ∃ gs?, (Preparation.ofComplex τ v (.list (register.map .qubit))).gates? (some c) = .ok gs? := by
  obtain ⟨hne, hn, hl⟩ := fresh_fits hf
  have hresolves := Preparation.resolves_ofComplex τ v (Operands.resolveAll_qubits hc) hne hn
  have hfits : (v.map Amplitude.ofCartesian).length ≤ dimension register.length := by
    rwa [List.length_map]
  have hentries : Entry.resolve (v.map fun z => .ok (Amplitude.ofCartesian z)) =
      .ok (v.map Amplitude.ofCartesian) := by
    rw [← Entry.resolve_map_ok, List.map_map]
    rfl
  exact ⟨_, hresolves.gates?_eq (Entry.pad_eq_ok_iff.mpr ⟨_, hentries, hfits, rfl⟩)⟩

end Action

/-! ## Failures -/

section Failures

variable [Scalar α] {s : Session α} {n : Nat} {c : Circuit α} {v : List (Cartesian α)}
  {d : Datum α}

/-- How the preparation of a vector fails in the circuit `c` under `n`: the fault, and the session
that is left. -/
inductive PreparationFailure (s : Session α) (n : Nat) (c : Circuit α) (v : List (Cartesian α))
    (d : Datum α) (τ : α) : Fault α → Session α → Prop
  | empty (hv : v = []) : PreparationFailure s n c v d τ .emptyVector s
  /-- The register that was given is checked as a whole. -/
  | refused {f : Fault α} (hv : v ≠ []) (hd : d ≠ .absent)
    (hf : Tolerance.check τ = .error f ∨
      Tolerance.check τ = .ok () ∧ (Preparation.ofComplex τ v d).gates? (some c) = .error f) :
    PreparationFailure s n c v d τ f s
  /-- An identifier is taken: the fresh qubits before it stay. -/
  | clash {k : Nat} (hv : v ≠ []) (hd : d = .absent)
    (hk : k < Preparation.registerSize v.length) (hc : s.Clashes c k) :
    PreparationFailure s n c v d τ
      (.identifierTaken ("qb_" ++ toString (s.generated + k + 1))) (s.allotted n c k (k + 1))
  /-- The tolerance is refused: all fresh qubits stay. -/
  | tolerance {f : Fault α} (hv : v ≠ []) (hd : d = .absent)
    (hfree : s.Free c (Preparation.registerSize v.length)) (hτ : Tolerance.check τ = .error f) :
    PreparationFailure s n c v d τ f
      (s.allotted n c (Preparation.registerSize v.length) (Preparation.registerSize v.length))

namespace PreparationFailure

variable {f : Fault α} {t : Session α} {tolerance : Option α}

theorem fails (h : s.receivers[n]? = some (.circuit c))
    (hf : PreparationFailure s n c v d (tolerance.getD s.defaultTolerance) f t) :
    Fails (prepareState v d (some (.receiver n)) tolerance) s f t := by
  cases hf with
  | empty hv =>
    subst hv
    exact (fails_throw .emptyVector s).bind _
  | refused hv hd hf =>
    unfold Fails
    rw [prepareState_register hv hd]
    exact fails_prepare h hf
  | clash hv hd hk hc =>
    subst hd
    unfold Fails
    rw [prepareState_absent h hv]
    exact (fails_addFreshQubits h hk hc).bind _
  | tolerance hv hd hfree hτ =>
    subst hd
    unfold Fails
    rw [prepareState_fresh h hv hfree]
    exact fails_prepare (Session.allotted_receiver h _ _) (Or.inl hτ)

/-- With a tolerance that is not refused, and room for the fresh qubits, nothing fails. -/
theorem returns_of_free (h : s.receivers[n]? = some (.circuit c)) (hv : v ≠ [])
    (hfree : s.Free c (Preparation.registerSize v.length))
    (hτ : Tolerance.check (tolerance.getD s.defaultTolerance) = .ok ()) :
    ∃ b t, Returns (prepareState v .absent (some (.receiver n)) tolerance) s b t := by
  have hgates : ∃ gs?, (Preparation.ofComplex (tolerance.getD s.defaultTolerance) v
      (.list ((fresh s.created s.generated (Preparation.registerSize v.length)).map
        .qubit))).gates? (some { c with
        qubits := c.qubits ++ fresh s.created s.generated (Preparation.registerSize v.length) }) =
      .ok gs? := exists_gates?_fresh rfl fun q hq => List.mem_append_right c.qubits hq
  obtain ⟨gs?, hgs⟩ := hgates
  rcases returns_prepare_or_refused (p := .ofComplex _ v _)
    (Session.allotted_receiver h _ (Preparation.registerSize v.length)) with
    ⟨b, t, hr⟩ | ⟨f, hf | ⟨-, hf⟩⟩
  · exact ⟨b, t, (prepareState_fresh h hv hfree).trans hr⟩
  · cases hτ.symm.trans hf
  · cases hgs.symm.trans hf

theorem returns_or_failure (h : s.receivers[n]? = some (.circuit c)) :
    (∃ b t, Returns (prepareState v d (some (.receiver n)) tolerance) s b t) ∨
      ∃ f t, PreparationFailure s n c v d (tolerance.getD s.defaultTolerance) f t := by
  by_cases hv : v = []
  · exact Or.inr ⟨_, _, .empty hv⟩
  by_cases hd : d = .absent
  · rcases free_or_clashes s c (Preparation.registerSize v.length) with hfree | ⟨k, hk, hc⟩
    · cases hτ : Tolerance.check (tolerance.getD s.defaultTolerance) with
      | ok =>
        subst hd
        exact Or.inl (returns_of_free h hv hfree hτ)
      | error f => exact Or.inr ⟨f, _, .tolerance hv hd hfree hτ⟩
    · exact Or.inr ⟨_, _, .clash hv hd hk hc⟩
  · rcases returns_prepare_or_refused h with ⟨b, t, hr⟩ | ⟨f, hf⟩
    · exact Or.inl ⟨b, t, (prepareState_register hv hd _ s).trans hr⟩
    · exact Or.inr ⟨f, s, .refused hv hd hf⟩

/-- Of the receivers only the circuit has changed, and only by fresh qubits. -/
theorem receivers_eq (h : s.receivers[n]? = some (.circuit c)) {τ : α}
    (hf : PreparationFailure s n c v d τ f t) :
    ∃ gained, t.receivers = s.receivers.set n (.circuit { c with qubits := c.qubits ++ gained }) ∧
      (v = [] ∨ d ≠ .absent → gained = []) := by
  have hsame : s.receivers = s.receivers.set n (.circuit { c with qubits := c.qubits ++ [] }) := by
    rw [List.append_nil]
    exact congrArg Session.receivers (Session.set_receiver_self h).symm
  cases hf with
  | empty hv => exact ⟨[], hsame, fun _ => rfl⟩
  | refused hv hd hf => exact ⟨[], hsame, fun _ => rfl⟩
  | clash hv hd hk hc => exact ⟨_, rfl, fun hkept => (hkept.elim hv fun hne => hne hd).elim⟩
  | tolerance hv hd hfree hτ =>
    exact ⟨_, rfl, fun hkept => (hkept.elim hv fun hne => hne hd).elim⟩

end PreparationFailure

/-- **Failed preparation.** The preparation of a vector in a circuit fails in the ways that are
listed, and in no other. Whenever it fails, the circuit has the gates it had, and other receivers
are as they were; the qubits are the same too if the vector is empty or a register was given, and
otherwise the circuit may have gained qubits. -/
theorem prepareState_failure (h : s.receivers[n]? = some (.circuit c)) (tolerance : Option α)
    (f : Fault α) (t : Session α) :
    (Fails (prepareState v d (some (.receiver n)) tolerance) s f t ↔
      PreparationFailure s n c v d (tolerance.getD s.defaultTolerance) f t) ∧
    (Fails (prepareState v d (some (.receiver n)) tolerance) s f t → ∃ gained,
      t.receivers = s.receivers.set n (.circuit { c with qubits := c.qubits ++ gained }) ∧
        (v = [] ∨ d ≠ .absent → gained = [])) := by
  have hiff : Fails (prepareState v d (some (.receiver n)) tolerance) s f t ↔
      PreparationFailure s n c v d (tolerance.getD s.defaultTolerance) f t := by
    refine ⟨fun hf => ?_, PreparationFailure.fails h⟩
    rcases PreparationFailure.returns_or_failure h with ⟨_, _, hr⟩ | ⟨_, _, hfailure⟩
    · exact absurd hf hr.not_fails
    · obtain ⟨rfl, rfl⟩ := (hfailure.fails h).unique hf
      exact hfailure
  exact ⟨hiff, fun hf => (hiff.mp hf).receivers_eq h⟩

end Failures

/-- A circuit of one qubit. -/
noncomputable def singleStart : Session ℝ :=
  ⟨1, 1, [.circuit ⟨"main", [⟨0, "qb_1"⟩], []⟩], [], 0, 0⟩

/-- A negative tolerance is refused when the circuit has gained a qubit. -/
theorem singleStart_failure : PreparationFailure singleStart 0 ⟨"main", [⟨0, "qb_1"⟩], []⟩
    [⟨1, 0⟩, ⟨0, 0⟩] .absent (-1) (.negativeTolerance (-1)) (singleStart.allotted 0
      ⟨"main", [⟨0, "qb_1"⟩], []⟩ (Preparation.registerSize 2) (Preparation.registerSize 2)) := by
  have hτ : Tolerance.check (-1 : ℝ) = .error (.negativeTolerance (-1)) := if_neg (by norm_num)
  refine .tolerance (by simp) rfl (fun q hq => ?_) hτ
  obtain rfl : q = ⟨1, "qb_2"⟩ := List.mem_singleton.mp hq
  decide

theorem prepareState_failure_single : ∃ f t, Fails (prepareState [⟨1, 0⟩, ⟨0, 0⟩] .absent
      (some (.receiver 0)) (some (-1))) singleStart f t ∧
    t.receivers = [.circuit ⟨"main", [⟨0, "qb_1"⟩, ⟨1, "qb_2"⟩], []⟩] :=
  ⟨_, _, (prepareState_failure rfl (some (-1)) _ _).1.mpr singleStart_failure, rfl⟩

/-- A preparation that fails may leave the circuit with more qubits. -/
theorem prepareState_failure_gains : ¬ ∀ (s t : Session ℝ) (n : ℕ) (c : Circuit ℝ)
    (v : List (Cartesian ℝ)) (d : Datum ℝ) (tolerance : Option ℝ) (f : Fault ℝ),
    s.receivers[n]? = some (.circuit c) →
      Fails (prepareState v d (some (.receiver n)) tolerance) s f t →
        t.receivers[n]? = some (.circuit c) := by
  intro hkept
  have hsame := hkept singleStart _ 0 _ _ _ (some (-1)) _ rfl (singleStart_failure.fails rfl)
  have hqubits := congrArg (fun r => (r.bind Sink.circuit?).map fun c => c.qubits.length) hsame
  have htwo : some 2 = some 1 := hqubits
  cases htwo

end StateSynthesis
