import StateSynthesis.Gate.Checked

/-!
Circuits: a name, qubits with different identifiers, and gates on these qubits. Adding a qubit and
appending a gate are the only ways in, and both keep the circuit well formed
(`addQubit_wellFormed`, `append_wellFormed`).
-/
namespace StateSynthesis

structure Circuit (α : Type) where
  name : String
  qubits : List Qubit
  gates : List (Gate α)

namespace Circuit

variable {α : Type}

def empty (name : String) : Circuit α := ⟨name, [], []⟩

def addQubit (c : Circuit α) (q : Qubit) : Except (Fault α) (Circuit α) :=
  if q.identifier ∈ c.qubits.map Qubit.identifier then .error (.identifierTaken q.identifier)
  else .ok { c with qubits := c.qubits ++ [q] }

/-- The first qubit of a gate that is not in the circuit. -/
def stranger? (c : Circuit α) (g : Gate α) : Option Qubit :=
  g.qubits.find? fun q => !c.qubits.contains q

def append (c : Circuit α) (g : Gate α) : Except (Fault α) (Circuit α) :=
  match c.stranger? g with
  | some q => .error (.strangerInGate g q c.name)
  | none => .ok { c with gates := c.gates ++ [g] }

def qubitAt? (c : Circuit α) (i : Int) : Option Qubit := Qubit.at? c.qubits i

structure WellFormed [Scalar α] (c : Circuit α) : Prop where
  identifiers_nodup : (c.qubits.map Qubit.identifier).Nodup
  gate_wellFormed : ∀ g ∈ c.gates, g.WellFormed
  gate_qubits : ∀ g ∈ c.gates, ∀ q ∈ g.qubits, q ∈ c.qubits

theorem empty_wellFormed [Scalar α] (name : String) : (empty name : Circuit α).WellFormed :=
  ⟨List.nodup_nil, by simp [empty], by simp [empty]⟩

theorem WellFormed.qubits_nodup [Scalar α] {c : Circuit α} (h : c.WellFormed) :
    c.qubits.Nodup :=
  List.Pairwise.of_map _ (fun _ _ hne heq => hne (congrArg _ heq)) h.identifiers_nodup

theorem addQubit_wellFormed [Scalar α] {c d : Circuit α} {q : Qubit} (hc : c.WellFormed)
    (h : c.addQubit q = .ok d) : d.WellFormed := by
  unfold addQubit at h
  split at h
  · cases h
  · rename_i hq
    cases h
    refine ⟨?_, hc.gate_wellFormed, fun g hg r hr => ?_⟩
    · simp only [List.map_append, List.map_cons, List.map_nil]
      exact List.nodup_append.mpr ⟨hc.identifiers_nodup, by simp, by
        intro a ha b hb hab
        simp only [List.mem_singleton] at hb
        exact hq (hb ▸ hab ▸ ha)⟩
    · exact List.mem_append_left _ (hc.gate_qubits g hg r hr)

theorem append_wellFormed [Scalar α] {c d : Circuit α} {g : Gate α} (hc : c.WellFormed)
    (hg : g.WellFormed) (h : c.append g = .ok d) : d.WellFormed := by
  unfold append at h
  split at h
  · cases h
  · rename_i hs
    cases h
    refine ⟨hc.identifiers_nodup, ?_, ?_⟩ <;> intro g' hg' <;>
      rcases List.mem_append.mp hg' with hm | hm
    · exact hc.gate_wellFormed g' hm
    · rw [List.mem_singleton.mp hm]; exact hg
    · exact hc.gate_qubits g' hm
    · rw [List.mem_singleton.mp hm]
      intro q hq
      simpa using List.find?_eq_none.mp hs q hq

end Circuit

end StateSynthesis
