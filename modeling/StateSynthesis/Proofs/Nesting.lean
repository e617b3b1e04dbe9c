import StateSynthesis.Environment
import StateSynthesis.Proofs.Operator
import StateSynthesis.Proofs.Resolution

/-!
Nested environments, as trees. A body collects the gates of its steps, and an environment inside of
it hands over its transformed gates (`Body.collect`). The meaning of a tree is the matrix of its
structure: steps multiply, a conjugation stands around its body, an inversion is the adjoint and a
control restricts to the controls at one (`Body.meaning`). What is collected has the matrix that the
tree means (`collect_meaning`). A tree with a step that raises collects nothing
(`not_raises_of_collect`), and one without collects gates if no control is used in its own scope
(`collect_of_apart`).
-/
namespace StateSynthesis

open Matrix

variable {α : Type}

/-! ## Trees -/

/-- An environment, with its gates as they are written down. -/
inductive Scope (α : Type) where
  | conjugation (gates : List (Gate α))
  | inversion
  | control (controls : List Qubit)

/-- The steps of a body. A step appends a gate as it is written down, raises, or opens an
environment around a further body. -/
inductive Body (α : Type) where
  | done
  | append (g : Gate α) (rest : Body α)
  | raise (f : Fault α) (rest : Body α)
  | nest (e : Scope α) (inner rest : Body α)

/-- All qubits of gates, and all controls. -/
def Scope.qubits : Scope α → List Qubit
  | conjugation vs => vs.flatMap Gate.qubits
  | inversion => []
  | control cs => cs

def Body.qubits : Body α → List Qubit
  | done => []
  | append g rest => g.qubits ++ rest.qubits
  | raise _ rest => rest.qubits
  | nest e inner rest => e.qubits ++ inner.qubits ++ rest.qubits

/-- Controls are different, and none of them is among the given qubits. -/
def Scope.ApartFrom (qs : List Qubit) : Scope α → Prop
  | control cs => cs.Nodup ∧ ∀ c ∈ cs, c ∉ qs
  | _ => True

/-- No gate in the scope of a control uses the control. -/
def Body.Apart : Body α → Prop
  | done => True
  | append _ rest | raise _ rest => rest.Apart
  | nest e inner rest => e.ApartFrom inner.qubits ∧ inner.Apart ∧ rest.Apart

/-- The gate is on the given qubits, and has no target if it is a global phase. -/
structure Gate.Within (qs : List Qubit) (g : Gate α) : Prop where
  phase_untargeted : g.kind = .gphase → g.target = none
  qubits_mem : ∀ q ∈ g.qubits, q ∈ qs

def Scope.Within (qs : List Qubit) : Scope α → Prop
  | conjugation vs => ∀ v ∈ vs, v.Within qs
  | inversion => True
  | control cs => ∀ c ∈ cs, c ∈ qs

def Body.Within (qs : List Qubit) : Body α → Prop
  | done => True
  | append g rest => g.Within qs ∧ rest.Within qs
  | raise _ rest => rest.Within qs
  | nest e inner rest => e.Within qs ∧ inner.Within qs ∧ rest.Within qs

theorem Body.Within.mono {qs rs : List Qubit} {b : Body α} (hw : b.Within qs)
    (h : ∀ q ∈ b.qubits, q ∈ rs) : b.Within rs := by
  induction b with
  | done => trivial
  | append g rest ih =>
    obtain ⟨hg, hr⟩ := List.forall_mem_append.mp h
    exact ⟨⟨hw.1.phase_untargeted, hg⟩, ih hw.2 hr⟩
  | raise f rest ih => exact ih hw h
  | nest e inner rest ihi ihr =>
    obtain ⟨hei, hr⟩ := List.forall_mem_append.mp h
    obtain ⟨he, hi⟩ := List.forall_mem_append.mp hei
    refine ⟨?_, ihi hw.2.1 hi, ihr hw.2.2 hr⟩
    cases e with
    | conjugation vs =>
      exact fun v hv => ⟨(hw.1 v hv).phase_untargeted, fun q hq =>
        he q (List.mem_flatMap.mpr ⟨v, hv, hq⟩)⟩
    | inversion => trivial
    | control cs => exact he

/-! ## What is collected -/

variable [Scalar α]

/-- The environment, whose gates are made when it is opened. -/
def Scope.enter : Scope α → Except (Fault α) (Environment α)
  | conjugation vs => do return .conjugation ((← vs.mapM Gate.remake).map Datum.gate)
  | inversion => return .inversion
  | control cs => return .control (cs.map Datum.qubit)

/-- What an environment makes of the gates of its body. The environment is opened first. -/
def Scope.around (e : Scope α) (inner : Except (Fault α) (List (Gate α))) :
    Except (Fault α) (List (Gate α)) := do
  let e ← e.enter
  e.transform (← inner)

/-- The gates in the buffer when the body is over. -/
def Body.collect : Body α → Except (Fault α) (List (Gate α))
  | done => return []
  | append g rest => do
    let h ← g.remake
    return h :: (← rest.collect)
  | raise f _ => throw f
  | nest e inner rest => do
    let gs ← e.around inner.collect
    return gs ++ (← rest.collect)

def Scope.Raises : Scope α → Prop
  | conjugation vs => ∃ v ∈ vs, ∀ h, v.remake ≠ .ok h
  | _ => False

/-- A step, at some depth, raises. -/
def Body.Raises : Body α → Prop
  | done => False
  | append g rest => (∀ h, g.remake ≠ .ok h) ∨ rest.Raises
  | raise _ _ => True
  | nest e inner rest => e.Raises ∨ inner.Raises ∨ rest.Raises

/-! ## What is meant -/

noncomputable def Scope.meaning (qs : List Qubit) (u : Operator qs) : Scope ℝ → Operator qs
  | conjugation vs => (Sequence.matrix qs vs)ᴴ * u * Sequence.matrix qs vs
  | inversion => uᴴ
  | control cs => Operator.controlledBy cs u

noncomputable def Body.meaning (qs : List Qubit) : Body ℝ → Operator qs
  | done => 1
  | append g rest => rest.meaning qs * g.matrix qs
  | raise _ rest => rest.meaning qs
  | nest e inner rest => rest.meaning qs * e.meaning qs (inner.meaning qs)

/-! ## Gates that are made -/

theorem Kind.unitary_angleFor (k : Kind) (a : ℝ) : k.unitary (Gate.angleFor k a) = k.unitary a := by
  cases k <;> rfl

namespace Gate

theorem On.of_remake {qs : List Qubit} {g h : Gate α} (hw : g.Within qs)
    (hr : g.remake = .ok h) : h.On qs := by
  obtain ⟨_, _, _, rfl⟩ := make_eq_ok_iff.mp hr
  exact ⟨⟨make_wellFormed hr, hw.phase_untargeted⟩, hw.qubits_mem⟩

theorem matrix_remake {qs : List Qubit} {g h : Gate ℝ} (hr : g.remake = .ok h) :
    h.matrix qs = g.matrix qs := by
  obtain ⟨k, target, controls, a⟩ := g
  obtain ⟨hphase, _, _, rfl⟩ := make_eq_ok_iff.mp hr
  refine congrArg (Operator.controlledBy controls) ?_
  cases target with
  | none =>
    have hk : k = .gphase := by simpa using hphase
    simp only [core, angleFor, hk, Kind.isParametrized, ↓reduceIte]
  | some q => simp only [core, Kind.unitary_angleFor]

theorem controlBy_eq_ok_iff {cs : List Qubit} {g h : Gate α} (hg : g.WellFormed) :
    g.controlBy (cs.map Datum.qubit) = .ok h ↔ g.Controllable cs ∧ g.withControls cs = h := by
  have hcs : (cs.map (Datum.qubit (α := α))).mapM controlOf = .ok cs :=
    mapM_map_of_ok (k := controlOf) (fun c => by rfl) cs
  simp only [controlBy, hcs, bind, Except.bind]
  rw [make_eq_ok_iff, hg.angleFor_eq]
  constructor
  · rintro ⟨-, hfree, hn, rfl⟩
    exact ⟨⟨fun q hq hc => hfree q hq (List.mem_append_left _ hc), hn⟩, rfl⟩
  · rintro ⟨hc, rfl⟩
    refine ⟨hg.target_or_phase, fun q hq hm => ?_, hc.controls_nodup, rfl⟩
    rcases List.mem_append.mp hm with hm | hm
    · exact hc.target_free q hq hm
    · exact hg.target_free q hq hm

end Gate

namespace Sequence

theorem controlBy_eq_ok_iff {cs : List Qubit} {gs hs : List (Gate α)}
    (hg : ∀ g ∈ gs, g.WellFormed) : controlBy (cs.map Datum.qubit) gs = .ok hs ↔
      (∀ g ∈ gs, g.Controllable cs) ∧ controlled cs gs = hs := by
  cases cs with
  | nil =>
    have hall : ∀ g ∈ gs, g.Controllable [] := fun g hm =>
      Gate.controllable_nil (hg g hm).controls_nodup
    rw [and_iff_right hall, controlled_nil]
    show (Except.ok gs : Except (Fault α) _) = .ok hs ↔ gs = hs
    simp
  | cons c cs =>
    show gs.mapM (Gate.controlBy ((c :: cs).map Datum.qubit)) = .ok hs ↔ _
    have heach : gs.mapM (Gate.controlBy ((c :: cs).map Datum.qubit)) = .ok hs ↔
        List.Forall₂ (fun g h => g.Controllable (c :: cs) ∧ g.withControls (c :: cs) = h) gs
          hs := by
      rw [mapM_eq_ok_iff]
      constructor
      · intro h
        exact ((List.forall₂_and_left _ _).mpr ⟨hg, h⟩).imp fun g h hc =>
          (Gate.controlBy_eq_ok_iff hc.1).mp hc.2
      · intro h
        exact ((List.forall₂_and_left _ _).mpr ⟨hg, h⟩).imp fun g h hc =>
          (Gate.controlBy_eq_ok_iff hc.1).mpr hc.2
    rw [heach, List.forall₂_and_left, ← List.forall₂_map_left_iff, List.forall₂_eq_eq_eq]
    rfl

end Sequence

namespace Environment

theorem transform_conjugation (vs gs : List (Gate α)) :
    (conjugation (vs.map Datum.gate)).transform gs = .ok (Sequence.conjugated vs gs) := by
  have hvs : (vs.map Datum.gate).mapM Gate.ofDatum = .ok vs :=
    mapM_map_of_ok (k := Gate.ofDatum) (fun v => by rfl) vs
  cases gs with
  | nil => rfl
  | cons g gs => simp only [transform, hvs]; rfl

end Environment

/-! ## What is collected is what is meant -/

namespace Sequence

theorem On.of_remake {qs : List Qubit} {vs ws : List (Gate α)} (hv : ∀ v ∈ vs, v.Within qs)
    (h : List.Forall₂ (fun v w => v.remake = .ok w) vs ws) : On qs ws := by
  induction h with
  | nil => exact on_nil qs
  | cons hw _ ih =>
    obtain ⟨hv, hvs⟩ := List.forall_mem_cons.mp hv
    exact on_cons.mpr ⟨.of_remake hv hw, ih hvs⟩

theorem matrix_remake {qs : List Qubit} {vs ws : List (Gate ℝ)}
    (h : List.Forall₂ (fun v w => v.remake = .ok w) vs ws) : matrix qs ws = matrix qs vs := by
  induction h with
  | nil => rfl
  | cons hw _ ih => rw [matrix, matrix, ih, Gate.matrix_remake hw]

end Sequence

namespace Scope

/-- The environment makes the second gates of the first ones. -/
inductive Emits (gs : List (Gate α)) : Scope α → List (Gate α) → Prop
  | conjugation {vs ws : List (Gate α)} (h : List.Forall₂ (fun v w => v.remake = .ok w) vs ws) :
    Emits gs (.conjugation vs) (Sequence.conjugated ws gs)
  | inversion : Emits gs .inversion (Sequence.inverse gs)
  | control {cs : List Qubit} (h : ∀ g ∈ gs, g.Controllable cs) :
    Emits gs (.control cs) (Sequence.controlled cs gs)

theorem emits_iff {e : Scope α} {gs hs : List (Gate α)} (hg : ∀ g ∈ gs, g.WellFormed) :
    (∃ environment, e.enter = .ok environment ∧ environment.transform gs = .ok hs) ↔
      e.Emits gs hs := by
  cases e with
  | conjugation vs =>
    simp only [enter, bind_eq_ok_iff, mapM_eq_ok_iff]
    constructor
    · rintro ⟨_, ⟨ws, hws, ⟨⟩⟩, ht⟩
      rw [Environment.transform_conjugation] at ht
      cases ht
      exact .conjugation hws
    · rintro ⟨hws⟩
      exact ⟨_, ⟨_, hws, rfl⟩, Environment.transform_conjugation _ gs⟩
  | inversion =>
    constructor
    · rintro ⟨_, ⟨⟩, ⟨⟩⟩
      exact .inversion
    · rintro ⟨⟩
      exact ⟨_, rfl, rfl⟩
  | control cs =>
    constructor
    · rintro ⟨_, ⟨⟩, ht⟩
      obtain ⟨hc, rfl⟩ := (Sequence.controlBy_eq_ok_iff hg).mp ht
      exact .control hc
    · rintro ⟨⟩
      rename_i hc
      exact ⟨_, rfl, (Sequence.controlBy_eq_ok_iff hg).mpr ⟨hc, rfl⟩⟩

/-- An environment whose gates can be made, around gates apart from its controls. -/
theorem exists_emits {qs : List Qubit} {e : Scope α} {gs : List (Gate α)} (hr : ¬ e.Raises)
    (ha : e.ApartFrom qs) (hg : Sequence.On qs gs) : ∃ hs, e.Emits gs hs := by
  cases e with
  | conjugation vs =>
    have hmade : ∀ v ∈ vs, ∃ w, v.remake = .ok w := by
      simpa [Raises] using hr
    obtain ⟨ws, hws⟩ := exists_forall₂ hmade
    exact ⟨_, .conjugation hws⟩
  | inversion => exact ⟨_, .inversion⟩
  | control cs =>
    exact ⟨_, .control fun g hm => Gate.controllable_of_disjoint (hg g hm).toWellFormed ha.1
      fun c hc hq => ha.2 c hc ((hg g hm).qubits_mem c hq)⟩

theorem Emits.on {qs : List Qubit} {e : Scope α} {gs hs : List (Gate α)} (h : e.Emits gs hs)
    (hw : e.Within qs) (hg : Sequence.On qs gs) : Sequence.On qs hs := by
  cases h with
  | conjugation h => exact (Sequence.On.of_remake hw h).conjugated hg
  | inversion => exact hg.inverse
  | control hc =>
    intro h hm
    obtain ⟨g, hmem, rfl⟩ := List.mem_map.mp hm
    exact (hg g hmem).withControls_of (hc g hmem) hw

theorem Emits.matrix_eq {qs : List Qubit} {e : Scope ℝ} {gs hs : List (Gate ℝ)}
    (h : e.Emits gs hs) (hw : e.Within qs) (hg : Sequence.On qs gs) :
    Sequence.matrix qs hs = e.meaning qs (Sequence.matrix qs gs) := by
  cases h with
  | conjugation h =>
    rw [Sequence.matrix_conjugated (.of_remake hw h), Sequence.matrix_remake h, meaning]
  | inversion => exact Sequence.matrix_inverse fun g hm => (hg g hm).toRunnable
  | control hc => exact Sequence.matrix_controlled fun g hm => (hc g hm).target_free

end Scope

namespace Body

/-- What a nested environment adds to the gates of the steps behind it. -/
theorem collect_nest {e : Scope α} {inner rest : Body α} {gs : List (Gate α)}
    (h : (nest e inner rest).collect = .ok gs) : ∃ environment is ts rs,
      inner.collect = .ok is ∧ e.enter = .ok environment ∧ environment.transform is = .ok ts ∧
      rest.collect = .ok rs ∧ gs = ts ++ rs := by
  simp only [collect, Scope.around, bind_eq_ok_iff] at h
  obtain ⟨ts, ⟨environment, he, is, his, hts⟩, rs, hrs, ⟨⟩⟩ := h
  exact ⟨environment, is, ts, rs, his, he, hts, hrs, rfl⟩

theorem collect_on {qs : List Qubit} {b : Body α} {gs : List (Gate α)} (hw : b.Within qs)
    (hc : b.collect = .ok gs) : Sequence.On qs gs := by
  induction b generalizing gs with
  | done =>
    cases hc
    exact Sequence.on_nil qs
  | append g rest ih =>
    simp only [collect, bind_eq_ok_iff] at hc
    obtain ⟨h, hh, hs, hhs, ⟨⟩⟩ := hc
    exact Sequence.on_cons.mpr ⟨.of_remake hw.1 hh, ih hw.2 hhs⟩
  | raise f rest => cases hc
  | nest e inner rest ihi ihr =>
    obtain ⟨environment, is, ts, rs, his, he, hts, hrs, rfl⟩ := collect_nest hc
    have hi := ihi hw.2.1 his
    have hemits := (Scope.emits_iff fun g hm => (hi g hm).toWellFormed).mp ⟨environment, he, hts⟩
    exact Sequence.on_append.mpr ⟨hemits.on hw.1 hi, ihr hw.2.2 hrs⟩

theorem collect_meaning {qs : List Qubit} {b : Body ℝ} {gs : List (Gate ℝ)} (hw : b.Within qs)
    (hc : b.collect = .ok gs) : Sequence.matrix qs gs = b.meaning qs := by
  induction b generalizing gs with
  | done =>
    cases hc
    rfl
  | append g rest ih =>
    simp only [collect, bind_eq_ok_iff] at hc
    obtain ⟨h, hh, hs, hhs, ⟨⟩⟩ := hc
    rw [Sequence.matrix, ih hw.2 hhs, Gate.matrix_remake hh, meaning]
  | raise f rest => cases hc
  | nest e inner rest ihi ihr =>
    obtain ⟨environment, is, ts, rs, his, he, hts, hrs, rfl⟩ := collect_nest hc
    have hi := collect_on hw.2.1 his
    have hemits := (Scope.emits_iff fun g hm => (hi g hm).toWellFormed).mp ⟨environment, he, hts⟩
    rw [Sequence.matrix_append, ihr hw.2.2 hrs, hemits.matrix_eq hw.1 hi, ihi hw.2.1 his, meaning]

/-! ## Which trees raise -/

theorem not_raises_of_collect {b : Body α} {gs : List (Gate α)} (hc : b.collect = .ok gs) :
    ¬ b.Raises := by
  induction b generalizing gs with
  | done => exact id
  | append g rest ih =>
    simp only [collect, bind_eq_ok_iff] at hc
    obtain ⟨h, hh, hs, hhs, -⟩ := hc
    rintro (hr | hr)
    · exact hr h hh
    · exact ih hhs hr
  | raise f rest => cases hc
  | nest e inner rest ihi ihr =>
    obtain ⟨environment, is, ts, rs, his, he, -, hrs, -⟩ := collect_nest hc
    rintro (hr | hr | hr)
    · cases e with
      | conjugation vs =>
        simp only [Scope.enter, bind_eq_ok_iff, mapM_eq_ok_iff] at he
        obtain ⟨ws, hws, -⟩ := he
        obtain ⟨v, hv, hn⟩ := hr
        obtain ⟨w, -, hw⟩ := exists_of_mem_forall₂ hws v hv
        exact hn w hw
      | inversion => exact hr
      | control cs => exact hr
    · exact ihi his hr
    · exact ihr hrs hr

/-- A tree in which no step raises, and no control is used in its own scope, collects gates. -/
theorem collect_of_apart {qs : List Qubit} {b : Body α} (hw : b.Within qs) (ha : b.Apart)
    (hr : ¬ b.Raises) : ∃ gs, b.collect = .ok gs := by
  induction b with
  | done => exact ⟨[], rfl⟩
  | append g rest ih =>
    simp only [Raises, not_or, not_forall, not_not] at hr
    obtain ⟨⟨h, hh⟩, hr⟩ := hr
    obtain ⟨gs, hgs⟩ := ih hw.2 ha hr
    exact ⟨h :: gs, bind_eq_ok_iff.mpr ⟨h, hh, bind_eq_ok_iff.mpr ⟨gs, hgs, rfl⟩⟩⟩
  | raise f rest => exact absurd trivial hr
  | nest e inner rest ihi ihr =>
    simp only [Raises, not_or] at hr
    obtain ⟨is, his⟩ := ihi hw.2.1 ha.2.1 hr.2.1
    obtain ⟨rs, hrs⟩ := ihr hw.2.2 ha.2.2 hr.2.2
    have hi : Sequence.On inner.qubits is := collect_on (hw.2.1.mono fun _ hq => hq) his
    obtain ⟨ts, hts⟩ := e.exists_emits hr.1 ha.1 hi
    obtain ⟨environment, he, ht⟩ :=
      (Scope.emits_iff fun g hm => (hi g hm).toWellFormed).mpr hts
    refine ⟨ts ++ rs, ?_⟩
    simp only [collect, Scope.around, he, his, ht, hrs, bind, Except.bind]
    rfl

end Body

end StateSynthesis
