import StateSynthesis.Preparation
import StateSynthesis.Diagonal

/-!
What the synthesis writes down. Every gate that it emits can be simulated and touches only the
qubits that it was given: this holds for the gates of a multiplexer (`gates_on`), of a diagonal
unitary (`phases_on`) and of a disentangled register (`disentangle_on`), and is kept by inversion,
by conjugation and by further controls.
-/
namespace StateSynthesis

variable {α : Type} [Scalar α]

/-- Well formed, and without a target if it is a global phase. -/
structure Gate.Runnable (g : Gate α) : Prop extends Gate.WellFormed g where
  phase_untargeted : g.kind = .gphase → g.target = none

/-- A gate for the simulator on some of the qubits `qs`. -/
structure Gate.On (qs : List Qubit) (g : Gate α) : Prop extends Gate.Runnable g where
  qubits_mem : ∀ q ∈ g.qubits, q ∈ qs

namespace Gate

/-- The checks on the operands of a gate, and the gate that passes them. -/
theorem make_eq_ok_iff {k : Kind} {target : Option Qubit} {controls : List Qubit} {a : α}
    {g : Gate α} : make k target controls a = .ok g ↔ (target.isSome ∨ k = .gphase) ∧
      (∀ q ∈ target, q ∉ controls) ∧ controls.Nodup ∧ ⟨k, target, controls, angleFor k a⟩ = g := by
  have hoverlap : overlap? target controls = none ↔ ∀ q ∈ target, q ∉ controls := by
    simp [overlap?, Option.filter_eq_none_iff]
  unfold make
  split
  · rename_i hm
    have hnone : ¬ (target.isSome ∨ k = .gphase) := by simpa using hm
    simp [hnone]
  · rename_i hm
    have hsome : target.isSome ∨ k = .gphase := by
      cases target with
      | none => exact Or.inr (by simpa using hm)
      | some q => exact Or.inl rfl
    split
    · rename_i ho
      have hfree : ¬ ∀ q ∈ target, q ∉ controls := fun h => by
        rw [hoverlap.mpr h] at ho
        cases ho
      simp only [hfree, false_and, and_false, reduceCtorEq]
    · rename_i ho
      have hfree := hoverlap.mp ho
      split
      · rename_i hn
        simp only [hsome, hn, true_and, Except.ok.injEq]
        exact ⟨fun h => ⟨hfree, h⟩, fun h => h.2⟩
      · rename_i hn
        simp only [hn, false_and, and_false, reduceCtorEq]

theorem WellFormed.angleFor_eq {g : Gate α} (h : g.WellFormed) :
    angleFor g.kind g.angle = g.angle := by
  cases hp : g.kind.isParametrized
  · simp [angleFor, hp, h.angle_eq hp]
  · simp [angleFor, hp]

/-- The gate as it is made from its parts. -/
def remake (g : Gate α) : Except (Fault α) (Gate α) := make g.kind g.target g.controls g.angle

theorem make_of_wellFormed {g : Gate α} (h : g.WellFormed) :
    make g.kind g.target g.controls g.angle = .ok g :=
  make_eq_ok_iff.mpr ⟨h.target_or_phase, h.target_free, h.controls_nodup, by rw [h.angleFor_eq]⟩

theorem WellFormed.inverse {g : Gate α} (h : g.WellFormed) : g.inverse.WellFormed where
  target_or_phase := by
    rcases h.target_or_phase with ht | hk
    · exact Or.inl ht
    · exact Or.inr (by simp [Gate.inverse, hk, Kind.inverse])
  target_free := h.target_free
  controls_nodup := h.controls_nodup
  angle_eq := fun hp => by
    have hk : g.kind.isParametrized = false := by simpa [Gate.inverse] using hp
    simp [Gate.inverse, angleFor, hk]

/-- Provided that the negation of scalars is an involution. -/
theorem WellFormed.inverse_inverse {g : Gate α} (h : g.WellFormed) (hα : ∀ x : α, - -x = x) :
    g.inverse.inverse = g := by
  have ha : angleFor g.kind.inverse (-angleFor g.kind (-g.angle)) = g.angle := by
    cases hp : g.kind.isParametrized
    · simp [angleFor, hp, h.angle_eq hp]
    · simp [angleFor, hp, hα]
  show Gate.mk g.kind.inverse.inverse g.target g.controls
    (angleFor g.kind.inverse (-angleFor g.kind (-g.angle))) = g
  rw [Kind.inverse_inverse, ha]

theorem Runnable.inverse {g : Gate α} (h : g.Runnable) : g.inverse.Runnable where
  toWellFormed := h.toWellFormed.inverse
  phase_untargeted := fun hp => by
    apply h.phase_untargeted
    cases hk : g.kind <;> simp [Gate.inverse, hk, Kind.inverse] at hp ⊢

theorem Runnable.target_eq_none_iff {g : Gate α} (h : g.Runnable) :
    g.target = none ↔ g.kind = .gphase := by
  constructor
  · intro ht
    rcases h.target_or_phase with hs | hk
    · simp [ht] at hs
    · exact hk
  · exact h.phase_untargeted

theorem On.mono {qs rs : List Qubit} {g : Gate α} (h : g.On qs) (hqr : ∀ q ∈ qs, q ∈ rs) :
    g.On rs := ⟨h.toRunnable, fun q hq => hqr q (h.qubits_mem q hq)⟩

theorem On.inverse {qs : List Qubit} {g : Gate α} (h : g.On qs) : g.inverse.On qs :=
  ⟨h.toRunnable.inverse, h.qubits_mem⟩

/-- The gate can have the controls `cs` in front of its own. -/
structure Controllable (cs : List Qubit) (g : Gate α) : Prop where
  target_free : ∀ q ∈ g.target, q ∉ cs
  controls_nodup : (cs ++ g.controls).Nodup

omit [Scalar α] in
theorem controllable_nil {g : Gate α} (h : g.controls.Nodup) : g.Controllable [] :=
  ⟨by simp, h⟩

theorem controllable_of_disjoint {cs : List Qubit} {g : Gate α} (h : g.WellFormed) (hn : cs.Nodup)
    (hd : ∀ c ∈ cs, c ∉ g.qubits) : g.Controllable cs where
  target_free := fun q hq hc => hd q hc (List.mem_append_right _ (Option.mem_toList.mpr hq))
  controls_nodup := List.nodup_append.mpr ⟨hn, h.controls_nodup, fun c hc _ hm e =>
    hd c hc (List.mem_append_left _ (e ▸ hm))⟩

theorem WellFormed.withControls {cs : List Qubit} {g : Gate α} (h : g.WellFormed)
    (hc : g.Controllable cs) : (g.withControls cs).WellFormed where
  target_or_phase := h.target_or_phase
  target_free := fun q hq hm => (List.mem_append.mp hm).elim (hc.target_free q hq)
    (h.target_free q hq)
  controls_nodup := hc.controls_nodup
  angle_eq := h.angle_eq

theorem On.withControls_of {cs qs : List Qubit} {g : Gate α} (h : g.On qs)
    (hc : g.Controllable cs) (hcs : ∀ c ∈ cs, c ∈ qs) : (g.withControls cs).On qs := by
  refine ⟨⟨h.toWellFormed.withControls hc, h.phase_untargeted⟩, ?_⟩
  intro q hq
  simp only [qubits, Gate.withControls, List.append_assoc] at hq
  rcases List.mem_append.mp hq with hm | hm
  · exact hcs q hm
  · exact h.qubits_mem q hm

theorem On.withControls {cs qs : List Qubit} {g : Gate α} (h : g.On qs) (hcs : (cs ++ qs).Nodup) :
    (g.withControls cs).On (cs ++ qs) := by
  obtain ⟨hn, _, hd⟩ := List.nodup_append.mp hcs
  have hc : g.Controllable cs := controllable_of_disjoint h.toWellFormed hn fun c hc hq =>
    hd c hc c (h.qubits_mem c hq) rfl
  exact (h.mono fun q hq => List.mem_append_right _ hq).withControls_of hc fun c hc =>
    List.mem_append_left _ hc

theorem rz_on (a : α) {q : Qubit} {qs : List Qubit} (hq : q ∈ qs) : (rz a q).On qs where
  target_or_phase := Or.inl rfl
  target_free := by simp [rz]
  controls_nodup := List.nodup_nil
  angle_eq := by simp [rz, Kind.isParametrized]
  phase_untargeted := by simp [rz]
  qubits_mem := by simpa [rz, qubits] using hq

theorem gphase_on (a : α) {cs qs : List Qubit} (hn : cs.Nodup) (hcs : ∀ c ∈ cs, c ∈ qs) :
    (gphase a cs).On qs where
  target_or_phase := Or.inr rfl
  target_free := by simp [gphase]
  controls_nodup := hn
  angle_eq := by simp [gphase, Kind.isParametrized]
  phase_untargeted := fun _ => rfl
  qubits_mem := by simpa [gphase, qubits] using hcs

theorem x_on {q : Qubit} {cs qs : List Qubit} (hn : (q :: cs).Nodup) (hcs : ∀ c ∈ q :: cs, c ∈ qs) :
    (x q cs : Gate α).On qs where
  target_or_phase := Or.inl rfl
  target_free := by simpa [x] using (List.nodup_cons.mp hn).1
  controls_nodup := (List.nodup_cons.mp hn).2
  angle_eq := fun _ => rfl
  phase_untargeted := by simp [x]
  qubits_mem := by
    intro r hr
    simp only [x, qubits, Option.toList_some, List.mem_append, List.mem_singleton] at hr
    rcases hr with hr | rfl
    · exact hcs r (List.mem_cons_of_mem _ hr)
    · exact hcs _ (List.mem_cons_self ..)

theorem basis_on {k : Kind} (hk : k ≠ .gphase) {q : Qubit} {qs : List Qubit} (hq : q ∈ qs) :
    (basis k q : Gate α).On qs where
  target_or_phase := Or.inl rfl
  target_free := by simp [basis]
  controls_nodup := List.nodup_nil
  angle_eq := fun _ => rfl
  phase_untargeted := fun h => absurd h hk
  qubits_mem := by simpa [basis, qubits] using hq

end Gate

namespace Sequence

def On (qs : List Qubit) (gs : List (Gate α)) : Prop := ∀ g ∈ gs, g.On qs

theorem on_nil (qs : List Qubit) : On (α := α) qs [] := by simp [On]

theorem on_cons {qs : List Qubit} {g : Gate α} {gs : List (Gate α)} :
    On qs (g :: gs) ↔ g.On qs ∧ On qs gs := by simp [On]

theorem on_append {qs : List Qubit} {gs hs : List (Gate α)} :
    On qs (gs ++ hs) ↔ On qs gs ∧ On qs hs := by
  simp only [On, List.mem_append, or_imp, forall_and]

theorem On.mono {qs rs : List Qubit} {gs : List (Gate α)} (h : On qs gs)
    (hqr : ∀ q ∈ qs, q ∈ rs) : On rs gs := fun g hg => (h g hg).mono hqr

theorem On.inverse {qs : List Qubit} {gs : List (Gate α)} (h : On qs gs) :
    On qs (inverse gs) := by
  intro g hg
  simp only [Sequence.inverse, List.mem_map, List.mem_reverse] at hg
  obtain ⟨f, hf, rfl⟩ := hg
  exact (h f hf).inverse

theorem On.oriented {qs : List Qubit} {gs : List (Gate α)} (h : On qs gs) (adjoint : Bool) :
    On qs (oriented adjoint gs) := by
  cases adjoint with
  | false => exact h
  | true => exact h.inverse

theorem On.controlled {cs qs : List Qubit} {gs : List (Gate α)} (h : On qs gs)
    (hcs : (cs ++ qs).Nodup) : On (cs ++ qs) (controlled cs gs) := by
  intro g hg
  obtain ⟨f, hf, rfl⟩ := List.mem_map.mp hg
  exact (h f hf).withControls hcs

/-- The same for controls that are listed behind the other qubits. -/
theorem On.controlled_append {cs qs : List Qubit} {gs : List (Gate α)} (h : On qs gs)
    (hn : (qs ++ cs).Nodup) : On (qs ++ cs) (Sequence.controlled cs gs) :=
  (h.controlled (List.perm_append_comm.nodup_iff.mp hn)).mono fun _ hq =>
    List.mem_append.mpr (List.mem_append.mp hq).symm

theorem On.conjugated {qs : List Qubit} {vs gs : List (Gate α)} (hv : On qs vs) (hg : On qs gs) :
    On qs (conjugated vs gs) := by
  unfold Sequence.conjugated
  split
  · exact on_nil qs
  · exact on_append.mpr ⟨on_append.mpr ⟨hv, hg⟩, hv.inverse⟩

end Sequence

open Sequence

/-! ## The gates of the synthesis -/

namespace Multiplexer

theorem leaf_on {qs : List Qubit} {τ : α} {gate : α → Gate α} (h : ∀ a, (gate a).On qs)
    (angles : List α) : On qs (leaf τ gate angles) := by
  simp only [leaf]
  split
  · exact on_cons.mpr ⟨h _, on_nil qs⟩
  · exact on_nil qs

theorem aboutZ_on (τ : α) {target : Qubit} {cs : List Qubit} (h : target ∉ cs)
    (angles : List α) : On (target :: cs) (aboutZ τ target cs angles) := by
  induction cs generalizing angles with
  | nil => exact leaf_on (fun a => Gate.rz_on a (List.mem_cons_self ..)) angles
  | cons c cs ih =>
    simp only [List.mem_cons, not_or] at h
    have hrest (as : List α) : On (target :: c :: cs) (aboutZ τ target cs as) := by
      refine (ih h.2 as).mono fun q hq => ?_
      rcases List.mem_cons.mp hq with rfl | hq
      · exact List.mem_cons_self ..
      · exact List.mem_cons_of_mem _ (List.mem_cons_of_mem _ hq)
    refine on_append.mpr ⟨hrest _, ?_⟩
    split
    · refine On.conjugated (on_cons.mpr ⟨Gate.x_on ?_ ?_, on_nil _⟩) (hrest _)
      · simpa using h.1
      · intro q hq
        simp only [List.mem_cons, List.not_mem_nil, or_false] at hq ⊢
        exact hq.imp_right Or.inl
    · exact on_nil _

theorem underOuter_on (τ : α) {target : Qubit} {cs outer : List Qubit} (ht : target ∉ cs ++ outer)
    (ho : outer.Nodup) (angles : List α) :
    On (target :: (cs ++ outer)) (underOuter τ target cs outer angles) := by
  have hz (as : List α) : On (target :: (cs ++ outer)) (aboutZ τ target cs as) := by
    refine (aboutZ_on τ (fun h => ht (List.mem_append_left _ h)) as).mono fun q hq => ?_
    rcases List.mem_cons.mp hq with rfl | hq
    · exact List.mem_cons_self ..
    · exact List.mem_cons_of_mem _ (List.mem_append_left _ hq)
  unfold underOuter
  split
  · exact hz _
  · refine on_append.mpr ⟨hz _, ?_⟩
    split
    · refine On.conjugated (on_cons.mpr ⟨Gate.x_on ?_ ?_, on_nil _⟩) (hz _)
      · exact List.nodup_cons.mpr ⟨fun h => ht (List.mem_append_right _ h), ho⟩
      · intro q hq
        rcases List.mem_cons.mp hq with rfl | hq
        · exact List.mem_cons_self ..
        · exact List.mem_cons_of_mem _ (List.mem_append_right _ hq)
    · exact on_nil _

theorem gates_on (τ : α) (axis : Axis) {controls outer : List Qubit} {target : Qubit}
    (hd : (controls ++ outer ++ [target]).Nodup) (angles : List α) :
    On (target :: (controls ++ outer)) (gates τ axis controls target outer angles) := by
  obtain ⟨hco, _, htd⟩ := List.nodup_append.mp hd
  obtain ⟨_, ho, _⟩ := List.nodup_append.mp hco
  have ht : target ∉ controls ++ outer := fun h => htd target h target (by simp) rfl
  have hu : On (target :: (controls ++ outer))
      (underOuter τ target controls.reverse outer angles) := by
    refine (underOuter_on τ (by simpa using ht) ho angles).mono fun q hq => ?_
    simpa using hq
  have hb {k : Kind} (hk : k ≠ .gphase) :
      On (target :: (controls ++ outer)) [(Gate.basis k target : Gate α)] :=
    on_cons.mpr ⟨Gate.basis_on hk (List.mem_cons_self ..), on_nil _⟩
  cases axis with
  | identity =>
    exact leaf_on (fun a => Gate.gphase_on _ ho fun c hc =>
      List.mem_cons_of_mem _ (List.mem_append_right _ hc)) angles
  | z => exact hu
  | x => exact On.conjugated (hb (by decide)) hu
  | y => exact On.conjugated (hb (by decide)) (On.conjugated (hb (by decide)) hu)

theorem gates_on_plain (τ : α) (axis : Axis) {controls : List Qubit} {target : Qubit}
    (ht : target ∉ controls) (hn : controls.Nodup) (angles : List α) :
    On (target :: controls) (gates τ axis controls target [] angles) := by
  have hd : (controls ++ [] ++ [target]).Nodup := by
    rw [List.append_nil]
    exact (List.perm_append_singleton target controls).nodup_iff.mpr
      (List.nodup_cons.mpr ⟨ht, hn⟩)
  simpa using gates_on τ axis hd angles

end Multiplexer

theorem Diagonal.phases_on (τ : α) {qs : List Qubit} (h : qs.Nodup) (angles : List α) :
    On qs (phases τ qs angles) := by
  induction qs generalizing angles with
  | nil => exact Multiplexer.leaf_on (fun a => Gate.gphase_on a List.nodup_nil (by simp)) angles
  | cons q qs ih =>
    obtain ⟨hq, hn⟩ := List.nodup_cons.mp h
    exact on_append.mpr ⟨Multiplexer.aboutZ_on τ hq _,
      (ih hn _).mono fun r hr => List.mem_cons_of_mem _ hr⟩

theorem Preparation.disentangle_on (τ : α) {qs : List Qubit} (h : qs.Nodup)
    (as : List (Amplitude α)) : On qs (disentangle τ qs as) := by
  induction qs generalizing as with
  | nil => exact Multiplexer.leaf_on (fun a => Gate.gphase_on _ List.nodup_nil (by simp)) _
  | cons q qs ih =>
    obtain ⟨hq, hn⟩ := List.nodup_cons.mp h
    have hlevel (axis : Axis) (angles : List α) :=
      Multiplexer.gates_on_plain τ axis hq hn angles
    have hguard (b : Bool) {gs : List (Gate α)} (hg : On (q :: qs) gs) :
        On (q :: qs) (if b then gs else []) := by
      cases b with
      | false => exact on_nil _
      | true => exact hg
    have hrest (bs : List (Amplitude α)) : On (q :: qs) (disentangle τ qs bs) :=
      (ih hn bs).mono fun r hr => List.mem_cons_of_mem _ hr
    exact on_append.mpr ⟨hguard _ (hlevel _ _), on_append.mpr ⟨hguard _ (hlevel _ _),
      hguard _ (hrest _)⟩⟩

end StateSynthesis
