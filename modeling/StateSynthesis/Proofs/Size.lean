import Mathlib.Algebra.Group.Pi.Basic
import StateSynthesis.Circuit.Derive
import StateSynthesis.Proofs.Options

/-!
The size and the shape of a preparation. Gates are counted by their role, and every function that
writes gates down is held to a budget of them (`Sequence.Sized`): a multiplexer under `k` controls
to `2 ^ k` rotations and `2 (2 ^ k - 1)` flips (`Multiplexer.sized_aboutZ`), and a register of `n`
qubits to what its levels come to (`Preparation.sized_disentangle`). Rotations and basis changes
have no controls, and a flip has one, which is more significant than its target. Main statement:
`preparation_size`.
-/
namespace StateSynthesis

open Sequence

/-! ## Roles -/

/-- What a gate is there for. -/
inductive Role where
  | rotation | flip | basisChange | phase
  deriving DecidableEq

def Kind.role : Kind → Role
  | rx | ry | rz => .rotation
  | x => .flip
  | h | s | sdg => .basisChange
  | gphase => .phase

theorem Kind.role_inverse (k : Kind) : k.inverse.role = k.role := by cases k <;> rfl

/-- One gate with the role. -/
def Role.once (role : Role) : Role → Nat := fun r => if r = role then 1 else 0

variable {α : Type}

namespace Sequence

/-- The number of gates with a role. -/
def uses (gs : List (Gate α)) (r : Role) : Nat := gs.countP fun g => g.kind.role = r

theorem uses_append (gs hs : List (Gate α)) : uses (gs ++ hs) = uses gs + uses hs :=
  funext fun _ => List.countP_append

theorem uses_singleton (g : Gate α) : uses [g] = g.kind.role.once := by
  funext r
  simp [uses, List.countP_cons, Role.once, eq_comm]

theorem uses_inverse [Scalar α] (gs : List (Gate α)) : uses (inverse gs) = uses gs := by
  have hkind (g : Gate α) : g.inverse.kind.role = g.kind.role := g.kind.role_inverse
  funext r
  simp [uses, inverse, List.countP_map, Function.comp_def, hkind]

/-- Every gate has a role. -/
theorem length_eq_uses (gs : List (Gate α)) : gs.length =
    uses gs .rotation + uses gs .flip + uses gs .basisChange + uses gs .phase := by
  induction gs with
  | nil => rfl
  | cons g gs ih =>
    have hcons : uses (g :: gs) = g.kind.role.once + uses gs := by
      rw [← uses_singleton, ← uses_append, List.singleton_append]
    simp only [List.length_cons, ih, hcons, Pi.add_apply]
    cases g.kind.role <;> simp only [Role.once, reduceCtorEq, ↓reduceIte] <;> omega

end Sequence

/-! ## The census -/

theorem lookup_countName (m n : String) (counts : List (String × Nat)) :
    ((countName n counts).lookup m).getD 0 = (counts.lookup m).getD 0 + if n = m then 1 else 0 := by
  induction counts with
  | nil =>
    by_cases h : n = m
    · simp [countName, h]
    · simp [countName, List.lookup_cons, h, beq_false_of_ne (Ne.symm h)]
  | cons entry counts ih =>
    obtain ⟨name, k⟩ := entry
    unfold countName
    by_cases hm : m = name
    · subst hm
      by_cases hn : m = n
      · simp [hn]
      · simp [hn, Ne.symm hn]
    · split
      · rename_i hn
        simp [List.lookup_cons, beq_false_of_ne hm, hn ▸ Ne.symm hm]
      · simpa only [List.lookup_cons, beq_false_of_ne hm] using ih

/-- The census counts the gates by their names. -/
theorem lookup_census (m : String) (c : Circuit α) :
    (c.census.lookup m).getD 0 = c.gates.countP fun g => g.censusName = m := by
  have hfold (names : List String) (counts : List (String × Nat)) :
      ((names.foldl (fun counts n => countName n counts) counts).lookup m).getD 0 =
        (counts.lookup m).getD 0 + names.countP (· = m) := by
    induction names generalizing counts with
    | nil => simp
    | cons n names ih =>
      rw [List.foldl_cons, ih, lookup_countName, List.countP_cons]
      simp only [decide_eq_true_eq]
      omega
  rw [Circuit.census, hfold, List.countP_map]
  simp [Function.comp_def]

/-! ## Places -/

variable [Scalar α]

/-- The gates that a preparation without controls can have on a register. -/
inductive Gate.Ranked (register : List Qubit) : Gate α → Prop
  | rotation (a : α) {q : Qubit} (hq : q ∈ register) : Ranked register (.rz a q)
  /-- Under a control that is more significant than the target. -/
  | flip {i j : Nat} {q c : Qubit} (hij : i < j) (hq : register[i]? = some q)
    (hc : register[j]? = some c) : Ranked register (.x q [c])
  | basisChange {k : Kind} (hk : k ∈ [.h, .s, .sdg]) {q : Qubit} (hq : q ∈ register) :
    Ranked register (.basis k q)
  | phase (a : α) : Ranked register (.gphase a [])

namespace Gate.Ranked

variable {register : List Qubit} {g : Gate α}

theorem cons (h : g.Ranked register) (q : Qubit) : g.Ranked (q :: register) := by
  cases h with
  | rotation a hq => exact rotation a (List.mem_cons_of_mem _ hq)
  | flip hij hq hc => exact flip (Nat.succ_lt_succ hij) hq hc
  | basisChange hk hq => exact basisChange hk (List.mem_cons_of_mem _ hq)
  | phase a => exact phase a

theorem inverse (h : g.Ranked register) : g.inverse.Ranked register := by
  cases h with
  | rotation a hq => exact rotation _ hq
  | flip hij hq hc => exact flip hij hq hc
  | @basisChange k hk q hq =>
    have hzero : angleFor k (-Scalar.zero : α) = Scalar.zero := by
      fin_cases hk <;> rfl
    have hk' : k.inverse ∈ [Kind.h, .s, .sdg] := by
      fin_cases hk <;> decide
    have hinverse : (Gate.basis k q : Gate α).inverse = .basis k.inverse q := by
      rw [Gate.inverse, Gate.basis, hzero]
      rfl
    exact hinverse ▸ basisChange hk' hq
  | phase a => exact phase _

/-- Only a flip is a controlled `x`. -/
theorem role_of_censusName (h : g.Ranked register) (hx : g.censusName = "cx") :
    g.kind.role = .flip := by
  have huncontrolled (k : Kind) : String.ofList [] ++ k.name ≠ "cx" := by cases k <;> decide
  cases h with
  | flip => rfl
  | rotation | basisChange | phase => exact absurd hx (huncontrolled _)

/-- Nothing outside of the register is touched. -/
theorem qubits_mem (h : g.Ranked register) : ∀ q ∈ g.qubits, q ∈ register := by
  cases h with
  | rotation a hq | basisChange hk hq => simpa [qubits, rz, basis] using hq
  | flip hij hq hc =>
    simpa [qubits, x] using ⟨List.mem_of_getElem? hc, List.mem_of_getElem? hq⟩
  | phase a => simp [qubits, gphase]

end Gate.Ranked

/-! ## Budgets -/

namespace Sequence

/-- The gates have their places on the register, and are not more than the budget allows. -/
structure Sized (register : List Qubit) (budget : Role → Nat) (gs : List (Gate α)) : Prop where
  ranked : ∀ g ∈ gs, g.Ranked register
  uses_le : ∀ r, uses gs r ≤ budget r

namespace Sized

variable {register : List Qubit} {b b' : Role → Nat} {gs hs : List (Gate α)}

theorem nil : Sized (α := α) register b [] := ⟨by simp, fun _ => Nat.zero_le _⟩

theorem singleton {g : Gate α} (h : g.Ranked register) : Sized register g.kind.role.once [g] :=
  ⟨by simpa using h, fun r => by rw [uses_singleton]⟩

theorem mono (h : Sized register b gs) (hb : ∀ r, b r ≤ b' r) : Sized register b' gs :=
  ⟨h.ranked, fun r => (h.uses_le r).trans (hb r)⟩

theorem cons (h : Sized register b gs) (q : Qubit) : Sized (q :: register) b gs :=
  ⟨fun g hg => (h.ranked g hg).cons q, h.uses_le⟩

theorem append (hg : Sized register b gs) (hh : Sized register b' hs) :
    Sized register (b + b') (gs ++ hs) := by
  refine ⟨fun g hm => (List.mem_append.mp hm).elim (hg.ranked g) (hh.ranked g), fun r => ?_⟩
  rw [uses_append]
  exact Nat.add_le_add (hg.uses_le r) (hh.uses_le r)

theorem inverse (h : Sized register b gs) : Sized register b (inverse gs) := by
  refine ⟨fun g hm => ?_, fun r => by rw [uses_inverse]; exact h.uses_le r⟩
  obtain ⟨f, hf, rfl⟩ := List.mem_map.mp hm
  exact (h.ranked f (List.mem_reverse.mp hf)).inverse

theorem guarded (h : Sized register b gs) (go : Bool) :
    Sized register b (if go then gs else []) := by
  cases go with
  | false => exact nil
  | true => exact h

/-- The gate in front comes back behind, if there is anything between. -/
theorem conjugated {g : Gate α} (hg : g.Ranked register) (h : Sized register b gs) :
    Sized register (g.kind.role.once + b + g.kind.role.once) (conjugated [g] gs) := by
  unfold Sequence.conjugated
  split
  · exact nil
  · exact ((singleton hg).append h).append (singleton hg).inverse

end Sized

end Sequence

/-- For a multiplexer about `z` under `k` controls. -/
def Role.multiplexed (k : Nat) : Role → Nat
  | rotation => 2 ^ k
  | flip => 2 * (2 ^ k - 1)
  | basisChange => 0
  | phase => 0

/-- For a register of `n` qubits. -/
def Role.prepared (n : Nat) : Role → Nat
  | rotation => 2 * (2 ^ n - 1)
  | flip => 4 * (2 ^ n - 1 - n)
  | basisChange => 4 * n
  | phase => 1

namespace Multiplexer

variable (τ : α) {t : Qubit} {qs : List Qubit}

theorem sized_aboutZ {cs : List Qubit} (hcs : ∀ c ∈ cs, c ∈ qs) (angles : List α) :
    Sized (t :: qs) (Role.multiplexed cs.length) (aboutZ τ t cs angles) := by
  induction cs generalizing angles with
  | nil =>
    have hrz (a : α) : Sized (t :: qs) (Role.multiplexed 0) [Gate.rz a t] := by
      refine (Sized.singleton (.rotation a List.mem_cons_self)).mono fun r => ?_
      show Role.rotation.once r ≤ Role.multiplexed 0 r
      cases r <;> decide
    exact (hrz _).guarded _
  | cons c cs ih =>
    obtain ⟨hc, hcs⟩ := List.forall_mem_cons.mp hcs
    obtain ⟨j, hj⟩ := List.mem_iff_getElem?.mp hc
    have hflip : (Gate.x t [c] : Gate α).Ranked (t :: qs) :=
      .flip (Nat.succ_pos j) rfl (List.getElem?_cons_succ.trans hj)
    refine ((ih hcs _).append (((ih hcs _).conjugated hflip).guarded _)).mono fun r => ?_
    have hpos := Nat.two_pow_pos cs.length
    cases r <;> simp only [Pi.add_apply, Role.multiplexed, Role.once, Gate.x, Kind.role,
      List.length_cons, Nat.pow_succ, reduceCtorEq, ↓reduceIte] <;> omega

theorem sized_gates_z (angles : List α) :
    Sized (t :: qs) (Role.multiplexed qs.length) (gates τ .z qs t [] angles) := by
  have hmem : ∀ c ∈ qs.reverse, c ∈ qs := fun c hc => List.mem_reverse.mp hc
  have h := sized_aboutZ τ (t := t) hmem angles
  rwa [List.length_reverse] at h

theorem sized_gates_y (angles : List α) :
    Sized (t :: qs) (Role.multiplexed qs.length + 4 • Role.once .basisChange)
      (gates τ .y qs t [] angles) := by
  have hbasis {k : Kind} (hk : k ∈ [Kind.h, .s, .sdg]) :
      (Gate.basis k t : Gate α).Ranked (t :: qs) := .basisChange hk List.mem_cons_self
  have h := ((sized_gates_z τ angles).conjugated (hbasis (k := .h) (by decide))).conjugated
    (hbasis (k := .sdg) (by decide))
  refine h.mono fun r => ?_
  simp only [Pi.add_apply, Pi.smul_apply, smul_eq_mul, Gate.basis, Kind.role]
  omega

end Multiplexer

namespace Preparation

theorem sized_disentangle (τ : α) (qs : List Qubit) (as : List (Amplitude α)) :
    Sized qs (Role.prepared qs.length) (disentangle τ qs as) := by
  induction qs generalizing as with
  | nil =>
    have hphase (a : α) : Sized [] (Role.prepared 0) [Gate.gphase a []] := by
      refine (Sized.singleton (.phase a)).mono fun r => ?_
      show Role.phase.once r ≤ Role.prepared 0 r
      cases r <;> decide
    exact (hphase _).guarded _
  | cons q qs ih =>
    refine (((Multiplexer.sized_gates_z τ _).guarded _).append
      (((Multiplexer.sized_gates_y τ _).guarded _).append
        (((ih _).cons q).guarded _))).mono fun r => ?_
    have hlt : qs.length < 2 ^ qs.length := Nat.lt_two_pow_self
    cases r <;> simp only [Pi.add_apply, Pi.smul_apply, smul_eq_mul, Role.multiplexed,
      Role.prepared, Role.once, List.length_cons, Nat.pow_succ, reduceCtorEq, ↓reduceIte] <;> omega

end Preparation

/-! ## The result -/

open SynthesisCall Operands in
/-- **Size.** A preparation on `n` qubits emits, under controls, what it emits without them, with
exactly these controls in front. That is on the register alone, with at most one control of its own
for any gate, and at most `2 (2 ^ n - 1)` rotations, `4 (2 ^ n - 1 - n)` flips, `4 n` basis changes
and one global phase. -/
theorem preparation_size {τ : α} {coefficients register controls : List (Datum α)} {adjoint : Bool}
    {frame : Option (Circuit α)} {gs : List (Gate α)}
    (h : (preparation τ coefficients register controls adjoint).emitted frame = .ok gs) :
    ∃ (rs cs : List Qubit) (body : List (Gate α)),
      List.Forall₂ (Names frame) register rs ∧ List.Forall₂ (Names frame) controls cs ∧
      (rs ++ cs).Nodup ∧
      (preparation τ coefficients register [] adjoint).emitted frame = .ok body ∧
      gs = controlled cs body ∧
      (∀ g ∈ body, g.Ranked rs ∧ ∀ q ∈ g.qubits, q ∈ rs) ∧
      uses body .rotation ≤ 2 * (2 ^ rs.length - 1) ∧
      uses body .flip ≤ 4 * (2 ^ rs.length - 1 - rs.length) ∧
      uses body .basisChange ≤ 4 * rs.length ∧
      uses body .phase ≤ 1 ∧
      body.length ≤ 6 * 2 ^ rs.length - 5 ∧
      ∀ name qubits, (⟨name, qubits, body⟩ : Circuit α).cnotCount ≤
        4 * (2 ^ rs.length - 1 - rs.length) := by
  obtain ⟨rs, cs, body, hr, hc, hn, hbody, hgs⟩ := emitted_preparation_iff.mp h
  have hsized : Sized rs (Role.prepared rs.length) body := by
    obtain ⟨-, -, as, -, rfl⟩ := hbody
    split
    · exact .nil
    · cases adjoint with
      | true => exact Preparation.sized_disentangle τ rs as
      | false => exact (Preparation.sized_disentangle τ rs as).inverse
  have hplain : (preparation τ coefficients register [] adjoint).emitted frame = .ok body := by
    refine emitted_preparation_iff.mpr ⟨rs, [], body, hr, .nil, ?_, hbody, controlled_nil body⟩
    rw [List.append_nil]
    exact (List.nodup_append.mp hn).1
  have hrotations : uses body .rotation ≤ 2 * (2 ^ rs.length - 1) := hsized.uses_le .rotation
  have hflips : uses body .flip ≤ 4 * (2 ^ rs.length - 1 - rs.length) := hsized.uses_le .flip
  have hbases : uses body .basisChange ≤ 4 * rs.length := hsized.uses_le .basisChange
  have hphases : uses body .phase ≤ 1 := hsized.uses_le .phase
  have hranked (g : Gate α) (hg : g ∈ body) : g.Ranked rs ∧ ∀ q ∈ g.qubits, q ∈ rs :=
    ⟨hsized.ranked g hg, (hsized.ranked g hg).qubits_mem⟩
  refine ⟨rs, cs, body, hr, hc, hn, hplain, hgs.symm, hranked, hrotations, hflips, hbases, hphases,
    ?_, fun name qubits => ?_⟩
  · have hlt : rs.length < 2 ^ rs.length := Nat.lt_two_pow_self
    rw [length_eq_uses]
    omega
  · rw [Circuit.cnotCount, lookup_census]
    refine (List.countP_mono_left fun g hg hx => ?_).trans hflips
    have hrole := (hsized.ranked g hg).role_of_censusName (of_decide_eq_true hx)
    exact decide_eq_true hrole

open SynthesisCall in
/-- Two qubits under one control. -/
theorem preparation_size_pair :
    ∃ gs body, (preparation (0 : ℝ) [.list [.number 1, .number 0], .list [.number 2, .number 1]]
        [.qubit ⟨0, "a"⟩, .qubit ⟨1, "b"⟩] [.qubit ⟨2, "c"⟩] false).emitted none = .ok gs ∧
      gs = controlled [⟨2, "c"⟩] body ∧ uses body .rotation ≤ 6 ∧ uses body .flip ≤ 4 ∧
      uses body .basisChange ≤ 8 ∧ uses body .phase ≤ 1 ∧ gs.length ≤ 19 := by
  have hnumeric : ∀ d ∈ (preparation (0 : ℝ) [.list [.number 1, .number 0],
      .list [.number 2, .number 1]] [.qubit ⟨0, "a"⟩, .qubit ⟨1, "b"⟩] [.qubit ⟨2, "c"⟩]
        false).coefficients, d.Numeric := by
    simp [SynthesisCall.coefficients, Datum.Numeric, Datum.items?, Datum.toNumber, Datum.number?]
  have haccepted : (preparation (0 : ℝ) [.list [.number 1, .number 0],
      .list [.number 2, .number 1]] [.qubit ⟨0, "a"⟩, .qubit ⟨1, "b"⟩] [.qubit ⟨2, "c"⟩]
        false).Accepted none [⟨0, "a"⟩, ⟨1, "b"⟩, ⟨2, "c"⟩] := {
    tolerance_ok := by simp [tolerance]
    names := .cons (.free _) (.cons (.free _) (.cons (.free _) .nil))
    distinct := by decide
    fits := by simp [SynthesisCall.count, width]
    wellFormed := by simp [Malformed]
    pairs := by simp [SynthesisCall.coefficients, Datum.IsPair, Datum.items?] }
  obtain ⟨gs, hgs, -⟩ := emitted_of_accepted hnumeric haccepted
  obtain ⟨rs, cs, body, hr, hc, -, -, rfl, -, hrotations, hflips, hbases, hphases, hlength, -⟩ :=
    preparation_size hgs
  have hrs : rs.length = 2 := hr.length_eq.symm
  obtain ⟨c, _, hname, hnil, rfl⟩ := List.forall₂_cons_left_iff.mp hc
  obtain rfl := List.forall₂_nil_left_iff.mp hnil
  obtain rfl := hname.unique (.free _)
  rw [hrs] at hrotations hflips hbases hlength
  exact ⟨_, body, hgs, rfl, hrotations, hflips, hbases, hphases,
    by simpa [controlled] using hlength⟩

end StateSynthesis
