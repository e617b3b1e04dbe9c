import StateSynthesis.Circuit.Sink

/-!
Handing gates to a receiver. A list takes every gate, a circuit those on its own qubits. A handover
goes on up to the first gate that is not taken: if all are taken the receiver has gained the whole
sequence (`accept_of_takes`), otherwise the gates before the first refusal (`accept_of_refused`).
-/
namespace StateSynthesis

variable {α : Type}

/-- A circuit takes a gate on its own qubits, and refuses another one for a qubit it does not
have. -/
theorem Circuit.append_eq_or (c : Circuit α) (g : Gate α) :
    (∀ q ∈ g.qubits, q ∈ c.qubits) ∧ c.append g = .ok { c with gates := c.gates ++ [g] } ∨
      ∃ q ∈ g.qubits, q ∉ c.qubits ∧ c.append g = .error (.strangerInGate g q c.name) := by
  unfold append
  cases hs : c.stranger? g with
  | none => exact Or.inl ⟨by simpa [stranger?] using hs, rfl⟩
  | some q =>
    exact Or.inr ⟨q, List.mem_of_find?_eq_some hs, by simpa using List.find?_some hs, rfl⟩

namespace Sink

/-! ## Gates that are taken -/

/-- Every qubit of the gate is in the receiver, if that is a circuit. -/
def Takes (r : Sink α) (g : Gate α) : Prop := ∀ c ∈ r.circuit?, ∀ q ∈ g.qubits, q ∈ c.qubits

/-- The receiver with more gates, without a check. -/
def extended (r : Sink α) (gs : List (Gate α)) : Sink α :=
  match r with
  | circuit c => circuit { c with gates := c.gates ++ gs }
  | list hs => list (hs ++ gs)

@[simp] theorem gates_extended (r : Sink α) (gs : List (Gate α)) :
    (r.extended gs).gates = r.gates ++ gs := by cases r <;> rfl

@[simp] theorem extended_nil (r : Sink α) : r.extended [] = r := by cases r <;> simp [extended]

@[simp] theorem extended_extended (r : Sink α) (gs hs : List (Gate α)) :
    (r.extended gs).extended hs = r.extended (gs ++ hs) := by cases r <;> simp [extended]

@[simp] theorem takes_list (gs : List (Gate α)) (g : Gate α) : (list gs).Takes g := by
  simp [Takes, circuit?]

@[simp] theorem takes_circuit (c : Circuit α) (g : Gate α) :
    (circuit c).Takes g ↔ ∀ q ∈ g.qubits, q ∈ c.qubits := by
  simp [Takes, circuit?]

theorem takes_extended {r : Sink α} {gs : List (Gate α)} {g : Gate α} :
    (r.extended gs).Takes g ↔ r.Takes g := by cases r <;> simp [extended]

theorem append_of_takes {r : Sink α} {g : Gate α} (h : r.Takes g) :
    r.append g = .ok (r.extended [g]) := by
  cases r with
  | list hs => rfl
  | circuit c =>
    rcases c.append_eq_or g with ⟨-, ha⟩ | ⟨q, hq, hc, -⟩
    · rw [append, ha]
      rfl
    · exact absurd ((takes_circuit c g).mp h q hq) hc

/-- A gate is refused for its first qubit that is not in the circuit. -/
theorem append_of_not_takes {r : Sink α} {g : Gate α} (h : ¬ r.Takes g) :
    ∃ c q, r = circuit c ∧ q ∈ g.qubits ∧ q ∉ c.qubits ∧
      r.append g = .error (.strangerInGate g q c.name) := by
  cases r with
  | list hs => exact absurd (takes_list hs g) h
  | circuit c =>
    rcases c.append_eq_or g with ⟨hall, -⟩ | ⟨q, hq, hc, ha⟩
    · exact absurd ((takes_circuit c g).mpr hall) h
    · refine ⟨c, q, rfl, hq, hc, ?_⟩
      rw [append, ha]
      rfl

theorem not_takes_of_append {r : Sink α} {g : Gate α} {f : Fault α} (h : r.append g = .error f) :
    ¬ r.Takes g := fun ht => by simp [append_of_takes ht] at h

/-! ## Sequences -/

theorem accept_of_takes {r : Sink α} {gs : List (Gate α)} (h : ∀ g ∈ gs, r.Takes g) :
    r.accept gs = (r.extended gs, none) := by
  induction gs generalizing r with
  | nil => simp [accept]
  | cons g gs ih =>
    have hrest := ih (r := r.extended [g]) fun k hk =>
      takes_extended.mpr (h k (List.mem_cons_of_mem _ hk))
    simp only [accept, append_of_takes (h g (List.mem_cons_self ..)), hrest, extended_extended,
      List.singleton_append]

theorem append_extended {r : Sink α} {g : Gate α} {f : Fault α} (h : r.append g = .error f)
    (gs : List (Gate α)) : (r.extended gs).append g = .error f := by
  cases r with
  | list hs => simp [append] at h
  | circuit c =>
    simp only [extended, append, Circuit.append, Circuit.stranger?] at h ⊢
    split at h
    · exact h
    · cases h

theorem accept_of_refused {r : Sink α} {taken rest : List (Gate α)} {g : Gate α} {f : Fault α}
    (ht : ∀ k ∈ taken, r.Takes k) (hg : r.append g = .error f) :
    r.accept (taken ++ g :: rest) = (r.extended taken, some f) := by
  rw [accept_append, accept_of_takes ht]
  simp only [accept, append_extended hg]

/-- A sequence is taken as a whole or has a first gate that is not. -/
theorem takes_or_refused (r : Sink α) (gs : List (Gate α)) :
    (∀ g ∈ gs, r.Takes g) ∨ ∃ taken g rest f, gs = taken ++ g :: rest ∧
      (∀ k ∈ taken, r.Takes k) ∧ r.append g = .error f := by
  induction gs with
  | nil => exact Or.inl (by simp)
  | cons g gs ih =>
    by_cases hg : r.Takes g
    · rcases ih with hall | ⟨taken, k, rest, f, rfl, ht, hk⟩
      · exact Or.inl (List.forall_mem_cons.mpr ⟨hg, hall⟩)
      · exact Or.inr ⟨g :: taken, k, rest, f, rfl, List.forall_mem_cons.mpr ⟨hg, ht⟩, hk⟩
    · obtain ⟨c, q, _, _, _, hf⟩ := append_of_not_takes hg
      exact Or.inr ⟨[], g, gs, _, rfl, by simp, hf⟩

end Sink

end StateSynthesis
