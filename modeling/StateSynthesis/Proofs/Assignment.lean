import Mathlib
import StateSynthesis.Dimension
import StateSynthesis.Qubit

/-!
Assignments of bits to qubits, and the number that a register of qubits holds: the first qubit is
the least significant one. Main statements: the number of a register of `n` qubits lies below
`2 ^ n` (`index_lt`), every such number is held (`index_ofIndex`), and one more qubit at the end is
the most significant one (`index_append`).
-/
namespace StateSynthesis

abbrev Assignment := Qubit → Bool

theorem dimension_eq_pow (n : ℕ) : dimension n = 2 ^ n := rfl

namespace Assignment

/-- The little-endian number that the qubits hold. -/
def index : List Qubit → Assignment → ℕ
  | [], _ => 0
  | q :: qs, bits => (bits q).toNat + 2 * index qs bits

/-- The assignment with the given qubits reset to zero. -/
def cleared (qs : List Qubit) (bits : Assignment) : Assignment :=
  fun q => if q ∈ qs then false else bits q

/-- An assignment under which the qubits hold `j`. -/
def ofIndex (qs : List Qubit) (j : ℕ) : Assignment := fun q => j.testBit (qs.idxOf q)

/-! ## The number of a register -/

theorem index_lt (qs : List Qubit) (bits : Assignment) : index qs bits < 2 ^ qs.length := by
  induction qs with
  | nil => simp [index]
  | cons q qs ih =>
    have hb : (bits q).toNat ≤ 1 := Bool.toNat_le _
    simp only [index, List.length_cons, Nat.pow_succ]
    omega

theorem index_congr {qs : List Qubit} {bits bits' : Assignment}
    (h : ∀ q ∈ qs, bits q = bits' q) : index qs bits = index qs bits' := by
  induction qs with
  | nil => rfl
  | cons q qs ih =>
    simp only [index, h q (List.mem_cons_self ..),
      ih fun r hr => h r (List.mem_cons_of_mem _ hr)]

@[simp] theorem index_update {qs : List Qubit} {q : Qubit} (h : q ∉ qs) (bits : Assignment)
    (b : Bool) : index qs (Function.update bits q b) = index qs bits := by
  apply index_congr
  intro r hr
  have hne : r ≠ q := fun e => h (e ▸ hr)
  exact Function.update_of_ne hne _ _

theorem index_append (qs : List Qubit) (q : Qubit) (bits : Assignment) :
    index (qs ++ [q]) bits = index qs bits + 2 ^ qs.length * (bits q).toNat := by
  induction qs with
  | nil => simp [index]
  | cons r qs ih =>
    simp only [List.cons_append, index, ih, List.length_cons, Nat.pow_succ]
    ring

theorem index_eq_zero_iff (qs : List Qubit) (bits : Assignment) :
    index qs bits = 0 ↔ ∀ q ∈ qs, bits q = false := by
  induction qs with
  | nil => simp [index]
  | cons q qs ih =>
    cases h : bits q <;> simp [index, h, ih]

theorem index_reverse_cons (q : Qubit) (qs : List Qubit) (bits : Assignment) :
    index (q :: qs).reverse bits = index qs.reverse bits + 2 ^ qs.length * (bits q).toNat := by
  rw [List.reverse_cons, index_append, List.length_reverse]

theorem index_ofIndex {qs : List Qubit} (h : qs.Nodup) {j : ℕ} (hj : j < 2 ^ qs.length) :
    index qs (ofIndex qs j) = j := by
  induction qs generalizing j with
  | nil =>
    simp only [List.length_nil, Nat.pow_zero] at hj
    simp only [index]
    omega
  | cons q qs ih =>
    obtain ⟨hq, hn⟩ := List.nodup_cons.mp h
    simp only [List.length_cons, Nat.pow_succ] at hj
    have hhead : ofIndex (q :: qs) j q = j.testBit 0 := by
      simp [ofIndex]
    have htail : index qs (ofIndex (q :: qs) j) = index qs (ofIndex qs (j / 2)) := by
      apply index_congr
      intro r hr
      have hne : q ≠ r := fun e => hq (e ▸ hr)
      simp [ofIndex, List.idxOf_cons_ne _ hne, Nat.testBit_succ]
    simp only [index, hhead, htail, ih hn (show j / 2 < 2 ^ qs.length by omega), Nat.testBit_zero]
    rcases Nat.mod_two_eq_zero_or_one j with hm | hm <;> simp [hm] <;> omega

/-! ## Resetting qubits -/

@[simp] theorem cleared_nil (bits : Assignment) : cleared [] bits = bits := by
  funext q
  simp [cleared]

theorem cleared_cons (q : Qubit) (qs : List Qubit) (bits : Assignment) :
    cleared qs (Function.update bits q false) = cleared (q :: qs) bits := by
  funext r
  by_cases hr : r = q
  · subst hr; simp [cleared]
  · simp [cleared, hr]

theorem cleared_of_mem {qs : List Qubit} {q : Qubit} (h : q ∈ qs) (bits : Assignment) :
    cleared qs bits q = false := if_pos h

theorem cleared_of_not_mem {qs : List Qubit} {q : Qubit} (h : q ∉ qs) (bits : Assignment) :
    cleared qs bits q = bits q := if_neg h

theorem cleared_eq_self {qs : List Qubit} {bits : Assignment} (h : ∀ q ∈ qs, bits q = false) :
    cleared qs bits = bits := by
  funext q
  by_cases hq : q ∈ qs
  · rw [cleared_of_mem hq, h q hq]
  · exact cleared_of_not_mem hq bits

end Assignment

end StateSynthesis
