import StateSynthesis.Proofs.FailedPreparation
import StateSynthesis.Proofs.Reachability

/-!
Fresh qubits. The identifier of a fresh qubit is made up without a look at the circuit that it is
for, so the circuit refuses it if somebody chose this label for one of its qubits
(`returns_addQubit_iff`). What was made up before is not in the way (`Session.Sound.unclaimed`), and
further attempts get past all that is (`exists_returns_addQubit`). Main statement:
`fresh_qubits_available`.
-/
namespace StateSynthesis

open StateSynthesis.Action

variable {α : Type}

/-! ## Identifiers that are made up -/

/-- None of the identifiers that are still to be made up is taken in the circuit. -/
def Session.Unclaimed (s : Session α) (c : Circuit α) : Prop :=
  ∀ m, s.generated < m → "qb_" ++ toString m ∉ c.qubits.map Qubit.identifier

/-- The session in which `k` fresh qubits were made, but joined no circuit. -/
def Session.spent (s : Session α) (k : Nat) : Session α :=
  { s with created := s.created + k, generated := s.generated + k }

namespace Session

variable {s : Session α} {c : Circuit α}

theorem Unclaimed.free (h : s.Unclaimed c) (k : Nat) : s.Free c k := by
  intro q hq
  obtain ⟨m, hm, he⟩ := mem_fresh hq
  rw [he]
  exact h m hm

/-- Among more identifiers than the circuit has qubits, one is not taken. -/
theorem exists_not_taken (s : Session α) (c : Circuit α) : ∃ k ≤ c.qubits.length,
    "qb_" ++ toString (s.generated + k + 1) ∉ c.qubits.map Qubit.identifier := by
  by_contra! hall
  have hnodup : ((List.range (c.qubits.length + 1)).map fun k =>
      "qb_" ++ toString (s.generated + k + 1)).Nodup :=
    List.nodup_range.map fun a b h => by
      have := madeUp_injective h
      omega
  have hsubset : ((List.range (c.qubits.length + 1)).map fun k =>
      "qb_" ++ toString (s.generated + k + 1)) ⊆ c.qubits.map Qubit.identifier := by
    intro id hid
    obtain ⟨k, hk, rfl⟩ := List.mem_map.mp hid
    exact hall k (Nat.lt_succ_iff.mp (List.mem_range.mp hk))
  have hle := (List.subperm_of_subset hnodup hsubset).length_le
  simp at hle

variable [Scalar α] {L : String → Prop} {ids : List String}

/-- Only a label that looks like one can be in the way of an identifier that is made up. -/
theorem Sound.unclaimed (h : s.Sound L ids) (hc : c.Sound (Qubit.Known ids))
    (hL : ∀ l, L l → ∀ m, l ≠ "qb_" ++ toString (m + 1)) : s.Unclaimed c := by
  intro m hm htaken
  obtain ⟨q, hq, he⟩ := List.mem_map.mp htaken
  have hmem : q.identifier ∈ ids := List.mem_of_getElem? (hc.qubits_sound q hq)
  rcases h.origin _ hmem with hl | ⟨j, hj, hid⟩
  · obtain ⟨m, rfl⟩ := Nat.exists_eq_add_one_of_ne_zero (Nat.ne_zero_of_lt hm)
    exact hL _ hl m he
  · have := madeUp_injective (he.symm.trans hid)
    omega

end Session

/-! ## Adding a qubit -/

namespace Action

variable {s : Session α} {n : Nat} {c : Circuit α}

theorem returns_addQubit_iff (h : s.receivers[n]? = some (.circuit c)) :
    (∃ q t, Returns (addQubit n .absent) s q t) ↔
      "qb_" ++ toString (s.generated + 1) ∉ c.qubits.map Qubit.identifier := by
  refine ⟨fun ⟨q, t, hr⟩ htaken => ?_, fun hfree => ⟨_, _, returns_addQubit_absent h hfree⟩⟩
  exact hr.not_fails (fails_addQubit_absent h htaken)

/-- Attempts fail until the made-up identifiers are past those that are taken. -/
theorem exists_returns_addQubit (h : s.receivers[n]? = some (.circuit c)) :
    ∃ k ≤ c.qubits.length,
      (∀ j < k, ∃ f, Fails (addQubit n .absent) (s.spent j) f (s.spent (j + 1))) ∧
      ∃ q t, Returns (addQubit n .absent) (s.spent k) q t := by
  have hexists : ∃ k, "qb_" ++ toString (s.generated + k + 1) ∉ c.qubits.map Qubit.identifier :=
    (s.exists_not_taken c).imp fun _ h => h.2
  obtain ⟨k, hk, hfree⟩ := s.exists_not_taken c
  classical
  refine ⟨Nat.find hexists, (Nat.find_min' hexists hfree).trans hk, fun j hj => ?_, ?_⟩
  · exact ⟨_, fails_addQubit_absent (s := s.spent j) h (not_not.mp (Nat.find_min hexists hj))⟩
  · exact (returns_addQubit_iff (s := s.spent _) h).mpr (Nat.find_spec hexists)

variable [Scalar α] {v : List (Cartesian α)} {tolerance : Option α}

/-- A vector that is not empty finds a register in the circuit if no fresh qubit is refused. -/
theorem returns_prepareState_iff (h : s.receivers[n]? = some (.circuit c)) (hv : v ≠ []) :
    (∃ b t, Returns (prepareState v .absent (some (.receiver n)) tolerance) s b t) ↔
      Tolerance.check (tolerance.getD s.defaultTolerance) = .ok () ∧
        s.Free c (Preparation.registerSize v.length) := by
  refine ⟨fun ⟨b, t, hr⟩ => ?_, fun ⟨hτ, hfree⟩ =>
    PreparationFailure.returns_of_free h hv hfree hτ⟩
  have hno {f : Fault α} {u : Session α} (hf : PreparationFailure s n c v .absent
      (tolerance.getD s.defaultTolerance) f u) : False := hr.not_fails (hf.fails h)
  have hfree : s.Free c (Preparation.registerSize v.length) := by
    rcases free_or_clashes s c (Preparation.registerSize v.length) with hfree | ⟨k, hk, hclash⟩
    · exact hfree
    · exact (hno (.clash hv rfl hk hclash)).elim
  refine ⟨?_, hfree⟩
  cases hτ : Tolerance.check (tolerance.getD s.defaultTolerance) with
  | ok => rfl
  | error f => exact (hno (.tolerance hv rfl hfree hτ)).elim

end Action

/-! ## The result -/

variable [Scalar α]

/-- **Fresh qubits.** In every session that is reached, a circuit takes in a fresh qubit exactly if
the identifier that is made up for it is not taken, and then the qubit differs from all qubits of
the circuit. Otherwise nothing but the identifier is lost, and as many further attempts as the
circuit has qubits suffice. A vector is prepared in fresh qubits of the circuit exactly if all of
them are taken in. All of this always goes well if nobody chooses labels that look like the
identifiers that are made up. -/
theorem fresh_qubits_available {L : String → Prop} {threshold standard : α} {s : Session α}
    (h : s.ReachedWith L threshold standard) {n : Nat} {c : Circuit α}
    (hc : s.receivers[n]? = some (.circuit c)) :
    ((∃ q t, Returns (addQubit n .absent) s q t) ↔
      "qb_" ++ toString (s.generated + 1) ∉ c.qubits.map Qubit.identifier) ∧
    (∀ q t, Returns (addQubit n .absent) s q t →
      q.token ∉ c.qubits.map Qubit.token ∧ q.identifier ∉ c.qubits.map Qubit.identifier ∧
        t.receivers = s.receivers.set n (.circuit { c with qubits := c.qubits ++ [q] })) ∧
    (∀ f t, Fails (addQubit n .absent) s f t →
      f = .identifierTaken ("qb_" ++ toString (s.generated + 1)) ∧ t = s.spent 1) ∧
    (∃ k ≤ c.qubits.length,
      (∀ j < k, ∃ f, Fails (addQubit n .absent) (s.spent j) f (s.spent (j + 1))) ∧
      ∃ q t, Returns (addQubit n .absent) (s.spent k) q t) ∧
    (∀ (v : List (Cartesian α)) (tolerance : Option α), v ≠ [] →
      ((∃ b t, Returns (prepareState v .absent (some (.receiver n)) tolerance) s b t) ↔
        Tolerance.check (tolerance.getD s.defaultTolerance) = .ok () ∧
          s.Free c (Preparation.registerSize v.length))) ∧
    ((∀ l, L l → ∀ m, l ≠ "qb_" ++ toString (m + 1)) →
      (∃ q t, Returns (addQubit n .absent) s q t) ∧
      ∀ (v : List (Cartesian α)) (tolerance : Option α), v ≠ [] →
        Tolerance.check (tolerance.getD s.defaultTolerance) = .ok () →
        ∃ b t, Returns (prepareState v .absent (some (.receiver n)) tolerance) s b t) := by
  obtain ⟨ids, hs⟩ := h.sound
  have hcs : c.Sound (Qubit.Known ids) := hs.receiver_sound hc
  have hiff := returns_addQubit_iff hc
  refine ⟨hiff, fun q t hr => ?_, fun f t hf => ?_, exists_returns_addQubit hc,
    fun v tolerance hv => returns_prepareState_iff hc hv, fun hL => ?_⟩
  · have hfree := hiff.mp ⟨q, t, hr⟩
    obtain ⟨rfl, rfl⟩ := hr.unique (returns_addQubit_absent hc hfree)
    refine ⟨fun htoken => ?_, hfree, rfl⟩
    obtain ⟨p, hp, he⟩ := List.mem_map.mp htoken
    have hlt := (List.getElem?_eq_some_iff.mp (hcs.qubits_sound p hp)).1
    rw [he, ← hs.created_eq] at hlt
    exact lt_irrefl _ hlt
  · by_cases htaken : "qb_" ++ toString (s.generated + 1) ∈ c.qubits.map Qubit.identifier
    · obtain ⟨rfl, rfl⟩ := hf.unique (fails_addQubit_absent hc htaken)
      exact ⟨rfl, rfl⟩
    · exact absurd hf (returns_addQubit_absent hc htaken).not_fails
  · have hunclaimed := hs.unclaimed hcs hL
    exact ⟨hiff.mpr (hunclaimed _ (Nat.lt_succ_self _)), fun v tolerance hv hτ =>
      (returns_prepareState_iff hc hv).mpr ⟨hτ, hunclaimed.free _⟩⟩

/-- A qubit with a label joins a circuit of `k` fresh qubits. -/
def labelScripts (label : String) (k : Nat) : List (Script ℝ) :=
  [.step none (some "b") (.createQubit (.text label)),
    .step none (some "c") (.createCircuit (.integer k) (some "main")),
    .step (some "c") none (.addQubit (.name "b"))]

/-- A label that does not look like an identifier that is made up is never in the way. -/
theorem fresh_qubits_available_label :
    ((Script.runAll (labelScripts "b" 1)).run (Session.start 0 0)).2.receivers[0]? =
      some (.circuit ⟨"main", [⟨1, "qb_1"⟩, ⟨0, "b"⟩], []⟩) ∧
    (∃ q t, Returns (addQubit 0 .absent)
      ((Script.runAll (labelScripts "b" 1)).run (Session.start 0 0)).2 q t ∧
        q.identifier ∉ ["qb_1", "b"]) ∧
    ∃ b t, Returns (prepareState [⟨1, 0⟩] .absent (some (.receiver 0)) (some 0))
      ((Script.runAll (labelScripts "b" 1)).run (Session.start 0 0)).2 b t := by
  have hrun : ((Script.runAll (labelScripts "b" 1)).run (Session.start 0 0)).2.receivers[0]? =
      some (.circuit ⟨"main", [⟨1, "qb_1"⟩, ⟨0, "b"⟩], []⟩) := by rfl
  have hreached : ((Script.runAll (labelScripts "b" 1)).run (Session.start 0 0)).2.ReachedWith
      (· = "b") 0 0 := by
    refine Session.ReachedWith.start.runAll fun l hl => ?_
    exact List.mem_singleton.mp hl
  have hlooks : ∀ l, l = "b" → ∀ m, l ≠ "qb_" ++ toString (m + 1) := by
    rintro _ rfl m he
    have hlength := congrArg String.length he
    rw [String.length_append] at hlength
    have hb : "b".length = 1 := by decide
    have hqb : "qb_".length = 3 := by decide
    omega
  obtain ⟨-, hdiffers, -, -, -, hlabels⟩ := fresh_qubits_available hreached hrun
  obtain ⟨⟨q, t, hq⟩, hprepared⟩ := hlabels hlooks
  exact ⟨hrun, ⟨q, t, hq, (hdiffers q t hq).2.1⟩,
    hprepared [⟨1, 0⟩] (some 0) (by simp) (Tolerance.check_real.mpr le_rfl)⟩

/-- A label that looks like one is in the way of the qubit that is made next. -/
theorem fresh_qubits_available_taken : ¬ ∀ (s : Session ℝ) (n : ℕ) (c : Circuit ℝ),
    s.Reached 0 0 → s.receivers[n]? = some (.circuit c) →
      ∃ q t, Returns (addQubit n .absent) s q t := by
  intro havailable
  have hrun : ((Script.runAll (labelScripts "qb_1" 0)).run (Session.start 0 0)).2.receivers[0]? =
      some (.circuit ⟨"main", [⟨0, "qb_1"⟩], []⟩) := by rfl
  have hadded := havailable _ 0 _ (Session.Reached.start.runAll (labelScripts "qb_1" 0)) hrun
  exact (returns_addQubit_iff hrun).mp hadded (by decide)

end StateSynthesis
