import StateSynthesis.Proofs.Acceptance
import StateSynthesis.Proofs.Allocation
import StateSynthesis.Proofs.Exact

/-!
Calls of the synthesis check everything before they emit. What the documentation forbids is listed
once for all four calls (`SynthesisCall.Faulty`). A call that is free of it resolves to distinct
qubits (`not_faulty_iff`) and emits gates on these qubits only, which no receiver refuses that the
qubits were resolved in; any other call is refused as an invalid argument, before its first gate.
Main statement: `synthesis_validates`.
-/
namespace StateSynthesis

variable {α : Type} [Scalar α]

/-! ## Calls and their faults -/

/-- Whatever the value unpacks into can be read as a number. -/
def Datum.Numeric (d : Datum α) : Prop := ∀ ds ∈ d.items?, ∀ e ∈ ds, ∃ x : α, e.toNumber = .ok x

def Datum.IsPair (d : Datum α) : Prop := ∃ x y, d.items? = some [x, y]

inductive SynthesisCall (α : Type) where
  | rotation (tolerance : α) (angles : List α) (axis : Axis) (controls : List (Datum α))
      (target : Datum α) (outer : List (Datum α)) (adjoint : Bool)
  | diagonal (tolerance : α) (angles : List α) (register controls : List (Datum α))
      (adjoint : Bool)
  | unpreparation (tolerance : α) (coefficients controls : List (Datum α)) (target : Datum α)
  | preparation (tolerance : α) (coefficients register controls : List (Datum α)) (adjoint : Bool)

namespace SynthesisCall

/-- The gates of the call, with operands from the circuit `frame` or without a circuit. A vector of
zeros is prepared by none. -/
def emitted (frame : Option (Circuit α)) : SynthesisCall α → Except (Fault α) (List (Gate α))
  | rotation τ angles axis controls target outer adjoint => MultiplexedRotation.gates
    ⟨τ, angles, .text axis.name, .list controls, target, .list outer, adjoint⟩ frame
  | diagonal τ angles register controls adjoint => DiagonalUnitary.gates
    ⟨τ, angles, .list register, .list controls, adjoint⟩ frame
  | unpreparation τ coefficients controls target => Unpreparation.gates
    ⟨τ, coefficients.map Entry.ofDatum, .list controls, target⟩ frame
  | preparation τ coefficients register controls adjoint => do
    Tolerance.check τ
    let gs ← Preparation.gates?
      ⟨τ, coefficients.map Entry.ofDatum, .list register, .list controls, adjoint⟩ frame
    return gs.getD []

/-- The call with the receiver of number `n`. -/
def perform (n : Nat) : SynthesisCall α → Action α Unit
  | preparation τ coefficients register controls adjoint => do
    let _ ← Action.prepare
      ⟨τ, coefficients.map Entry.ofDatum, .list register, .list controls, adjoint⟩
      (some (.receiver n))
  | c => Action.synthesize (fun frame => c.emitted frame) (some n)

def tolerance : SynthesisCall α → α
  | rotation τ .. | diagonal τ .. | unpreparation τ .. | preparation τ .. => τ

/-- All operands that have to be qubits, and different ones. -/
def operands : SynthesisCall α → List (Datum α)
  | rotation _ _ _ controls target outer _ => controls ++ outer ++ [target]
  | diagonal _ _ register controls _ => register ++ controls
  | unpreparation _ _ controls target => controls ++ [target]
  | preparation _ _ register controls _ => register ++ controls

def coefficients : SynthesisCall α → List (Datum α)
  | unpreparation _ coefficients .. | preparation _ coefficients .. => coefficients
  | _ => []

/-- The length of the vector of angles or coefficients. -/
def count : SynthesisCall α → Nat
  | rotation _ angles .. | diagonal _ angles .. => angles.length
  | unpreparation _ coefficients .. | preparation _ coefficients .. => coefficients.length

/-- The number of qubits whose states count the vector. -/
def width : SynthesisCall α → Nat
  | rotation _ _ _ controls .. => controls.length
  | diagonal _ _ register .. | preparation _ _ register .. => register.length
  | unpreparation _ _ controls _ => controls.length + 1

/-- A rotation about the identity has no controls, and a diagonal or a state needs a register. -/
def Malformed : SynthesisCall α → Prop
  | rotation _ _ axis controls .. => axis = .identity ∧ controls ≠ []
  | diagonal _ _ register .. | preparation _ _ register .. => register = []
  | unpreparation .. => False

/-- What is documented to be an invalid argument. -/
inductive Faulty (frame : Option (Circuit α)) (c : SynthesisCall α) : Prop
  | tolerance (h : Scalar.le Scalar.zero c.tolerance = false)
  | unresolved {d : Datum α} (hd : d ∈ c.operands) (h : ∀ q, ¬ Operands.Names frame d q)
  | repeated {qs : List Qubit} (h : List.Forall₂ (Operands.Names frame) c.operands qs)
    (hn : ¬ qs.Nodup)
  | tooMany (h : 2 ^ c.width < c.count)
  | malformed (h : c.Malformed)
  | notAPair {d : Datum α} (hd : d ∈ c.coefficients) (h : ¬ d.IsPair)

/-- What a call has to be so that nothing is wrong, and the qubits that its operands stand for. -/
structure Accepted (frame : Option (Circuit α)) (c : SynthesisCall α) (qs : List Qubit) : Prop where
  tolerance_ok : Scalar.le Scalar.zero c.tolerance = true
  names : List.Forall₂ (Operands.Names frame) c.operands qs
  distinct : qs.Nodup
  fits : c.count ≤ 2 ^ c.width
  wellFormed : ¬ c.Malformed
  pairs : ∀ d ∈ c.coefficients, d.IsPair

variable {frame : Option (Circuit α)} {c : SynthesisCall α}

theorem not_faulty_iff : ¬ c.Faulty frame ↔ ∃ qs, c.Accepted frame qs := by
  constructor
  · intro h
    have hnames : ∀ d ∈ c.operands, ∃ q, Operands.Names frame d q := by
      intro d hd
      by_contra hq
      exact h (.unresolved hd (not_exists.mp hq))
    obtain ⟨qs, hqs⟩ := exists_forall₂ hnames
    exact ⟨qs, {
      tolerance_ok := by
        by_contra hτ
        exact h (.tolerance (by simpa using hτ))
      names := hqs
      distinct := by
        by_contra hn
        exact h (.repeated hqs hn)
      fits := by
        by_contra hc
        exact h (.tooMany (by omega))
      wellFormed := fun hm => h (.malformed hm)
      pairs := fun d hd => by
        by_contra hp
        exact h (.notAPair hd hp) }⟩
  · rintro ⟨qs, ha⟩ h
    cases h with
    | tolerance h => simp [ha.tolerance_ok] at h
    | unresolved hd h =>
      obtain ⟨q, -, hq⟩ := exists_of_mem_forall₂ ha.names _ hd
      exact h q hq
    | repeated h hn => exact hn (Operands.names_unique h ha.names ▸ ha.distinct)
    | tooMany h => exact absurd ha.fits (by omega)
    | malformed h => exact ha.wellFormed h
    | notAPair hd h => exact h (ha.pairs _ hd)

end SynthesisCall

/-! ## Entries and axes -/

namespace Entry

theorem ofDatum_eq_ok {d : Datum α} {a : Amplitude α} (h : ofDatum d = .ok a) : d.IsPair := by
  unfold ofDatum at h
  split at h
  · exact ⟨_, _, by assumption⟩
  · cases h

theorem exists_ofDatum {d : Datum α} (hn : d.Numeric) (hp : d.IsPair) :
    ∃ a, ofDatum d = .ok a := by
  obtain ⟨x, y, hd⟩ := hp
  obtain ⟨r, hr⟩ := hn _ hd x (by simp)
  obtain ⟨t, ht⟩ := hn _ hd y (by simp)
  refine ⟨⟨r, t⟩, ?_⟩
  simp only [ofDatum, hd, hr, ht]
  rfl

theorem refuses_ofDatum {d : Datum α} (hn : d.Numeric) : Refuses (ofDatum d) := by
  by_cases hp : d.IsPair
  · obtain ⟨a, ha⟩ := exists_ofDatum hn hp
    rw [ha]
    exact refuses_ok a
  · unfold ofDatum
    split
    · exact absurd ⟨_, _, by assumption⟩ hp
    · exact refuses_error rfl

theorem resolve_eq_ok_iff {ds : List (Datum α)} {as : List (Amplitude α)} :
    resolve (ds.map ofDatum) = .ok as ↔ List.Forall₂ (fun d a => ofDatum d = .ok a) ds as := by
  simp only [resolve, mapM_eq_ok_iff, List.forall₂_map_left_iff, id]

theorem pad_eq_ok_iff {n : Nat} {es : List (Entry α)} {as : List (Amplitude α)} :
    pad n es = .ok as ↔
      ∃ bs, resolve es = .ok bs ∧ bs.length ≤ n ∧ Amplitude.padTo n bs = as := by
  simp only [pad, padAs, bind_eq_ok_iff, guard_eq_ok_iff, Nat.not_lt, pure, Except.pure,
    Except.ok.injEq]

theorem pairs_of_pad {n : Nat} {ds : List (Datum α)} {as : List (Amplitude α)}
    (h : pad n (ds.map ofDatum) = .ok as) : ds.length ≤ n ∧ ∀ d ∈ ds, d.IsPair := by
  obtain ⟨bs, hbs, hl, -⟩ := pad_eq_ok_iff.mp h
  have hpairs := resolve_eq_ok_iff.mp hbs
  refine ⟨hpairs.length_eq ▸ hl, fun d hd => ?_⟩
  obtain ⟨a, -, ha⟩ := exists_of_mem_forall₂ hpairs d hd
  exact ofDatum_eq_ok ha

theorem exists_pad {n : Nat} {ds : List (Datum α)} (hn : ∀ d ∈ ds, d.Numeric)
    (hp : ∀ d ∈ ds, d.IsPair) (hl : ds.length ≤ n) : ∃ as, pad n (ds.map ofDatum) = .ok as := by
  obtain ⟨bs, hbs⟩ := exists_forall₂ fun d hd => exists_ofDatum (hn d hd) (hp d hd)
  exact ⟨_, pad_eq_ok_iff.mpr ⟨bs, resolve_eq_ok_iff.mpr hbs, hbs.length_eq ▸ hl, rfl⟩⟩

theorem refuses_pad (n : Nat) {ds : List (Datum α)} (hn : ∀ d ∈ ds, d.Numeric) :
    Refuses (pad n (ds.map ofDatum)) := by
  refine Refuses.bind ?_ fun as => refuses_guard rfl (refuses_ok _)
  refine refuses_mapM fun e he => ?_
  obtain ⟨d, hd, rfl⟩ := List.mem_map.mp he
  exact refuses_ofDatum (hn d hd)

theorem numeric_of_ofDatum {d : Datum α} {a : Amplitude α} (h : ofDatum d = .ok a) :
    d.Numeric := by
  unfold ofDatum at h
  split at h
  · rename_i x y hd
    obtain ⟨r, hr, h⟩ := bind_eq_ok_iff.mp h
    obtain ⟨t, ht, -⟩ := bind_eq_ok_iff.mp h
    rintro ds hds e he
    obtain rfl := Option.some.inj (hd.symm.trans hds)
    simp only [List.mem_cons, List.not_mem_nil, or_false] at he
    rcases he with rfl | rfl
    · exact ⟨r, hr⟩
    · exact ⟨t, ht⟩
  · cases h

theorem numeric_of_pad {n : Nat} {ds : List (Datum α)} {as : List (Amplitude α)}
    (h : pad n (ds.map ofDatum) = .ok as) : ∀ d ∈ ds, d.Numeric := by
  intro d hd
  obtain ⟨bs, hbs, -, -⟩ := pad_eq_ok_iff.mp h
  obtain ⟨a, -, ha⟩ := exists_of_mem_forall₂ (resolve_eq_ok_iff.mp hbs) d hd
  exact numeric_of_ofDatum ha

end Entry

omit [Scalar α] in
theorem Axis.ofDatum_name (axis : Axis) : Axis.ofDatum (.text axis.name : Datum α) = .ok axis := by
  cases axis <;> rfl

theorem Tolerance.refuses_check (τ : α) : Refuses (check τ) := by
  unfold check
  split
  · exact refuses_ok _
  · exact refuses_error rfl

theorem Angles.refuses_pad (k : Nat) (xs : List α) : Refuses (pad k xs) := by
  unfold pad
  split
  · exact refuses_error rfl
  · exact refuses_ok _

/-! ## Calls that are accepted

The checks of each call, taken together, are what an accepted call has to be. -/

namespace SynthesisCall

open Operands

variable {frame : Option (Circuit α)} {c : SynthesisCall α}

theorem refuses_emitted (frame : Option (Circuit α)) (hc : ∀ d ∈ c.coefficients, d.Numeric) :
    Refuses (c.emitted frame) := by
  cases c with
  | rotation τ angles axis controls target outer adjoint =>
    refine (Tolerance.refuses_check τ).bind fun _ => ?_
    refine Refuses.bind (by rw [Axis.ofDatum_name]; exact refuses_ok _) fun _ => ?_
    refine (refuses_resolveAll frame controls).bind fun _ => ?_
    refine (refuses_resolveAll frame outer).bind fun _ => ?_
    refine (refuses_resolve frame target).bind fun _ => refuses_guard rfl ?_
    exact (refuses_distinct _).bind fun _ => (Angles.refuses_pad _ _).bind fun _ => refuses_ok _
  | diagonal τ angles register controls adjoint =>
    refine (Tolerance.refuses_check τ).bind fun _ => ?_
    refine (refuses_resolveAll frame register).bind fun _ => ?_
    refine (refuses_resolveAll frame controls).bind fun _ => refuses_guard rfl ?_
    exact (refuses_distinct _).bind fun _ => (Angles.refuses_pad _ _).bind fun _ => refuses_ok _
  | unpreparation τ coefficients controls target =>
    refine (Tolerance.refuses_check τ).bind fun _ => ?_
    refine (refuses_resolveAll frame controls).bind fun _ => ?_
    refine (refuses_resolve frame target).bind fun _ => ?_
    exact (refuses_distinct _).bind fun _ => (Entry.refuses_pad _ hc).bind fun _ => refuses_ok _
  | preparation τ coefficients register controls adjoint =>
    refine (Tolerance.refuses_check τ).bind fun _ => Refuses.bind ?_ fun _ => refuses_ok _
    refine (refuses_resolveAll frame register).bind fun _ => ?_
    refine (refuses_resolveAll frame controls).bind fun _ => refuses_guard rfl ?_
    refine (refuses_distinct _).bind fun _ => (Entry.refuses_pad _ hc).bind fun _ => ?_
    split <;> exact refuses_ok _

variable {τ : α} {angles : List α} {axis : Axis} {target : Datum α} {adjoint : Bool}
  {coefficients register controls outer : List (Datum α)} {qs : List Qubit}

theorem accepted_rotation_iff :
    (rotation τ angles axis controls target outer adjoint).Accepted frame qs ↔
      ∃ cs os t, qs = cs ++ os ++ [t] ∧ MultiplexedRotation.Admits
        ⟨τ, angles, .text axis.name, .list controls, target, .list outer, adjoint⟩ frame axis cs os
          t := by
  constructor
  · intro h
    obtain ⟨_, _, hcos, hts, rfl⟩ := names_append_iff.mp h.names
    obtain ⟨cs, os, hcs, hos, rfl⟩ := names_append_iff.mp hcos
    obtain ⟨t, _, ht, ⟨⟩, rfl⟩ := List.forall₂_cons_left_iff.mp hts
    exact ⟨cs, os, t, rfl, {
      tolerance_ok := Tolerance.check_eq_ok_iff.mpr h.tolerance_ok
      axis_ok := Axis.ofDatum_name axis
      controls_ok := resolveAll_list_eq_ok_iff.mpr hcs
      outer_ok := resolveAll_list_eq_ok_iff.mpr hos
      target_ok := resolve_eq_ok_iff.mpr ht
      identity_free := fun e => by
        by_contra hne
        refine h.wellFormed ⟨e, fun hnil => hne ?_⟩
        subst hnil
        exact List.forall₂_nil_left_iff.mp hcs
      distinct := h.distinct
      angles_fit := hcs.length_eq ▸ h.fits }⟩
  · rintro ⟨cs, os, t, rfl, ha⟩
    have hcs := resolveAll_list_eq_ok_iff.mp ha.controls_ok
    have hos := resolveAll_list_eq_ok_iff.mp ha.outer_ok
    have ht := resolve_eq_ok_iff.mp ha.target_ok
    exact {
      tolerance_ok := Tolerance.check_eq_ok_iff.mp ha.tolerance_ok
      names := List.rel_append (List.rel_append hcs hos) (.cons ht .nil)
      distinct := ha.distinct
      fits := by
        rw [width, hcs.length_eq]
        exact ha.angles_fit
      wellFormed := by
        rintro ⟨rfl, hne⟩
        obtain rfl := ha.identity_free rfl
        exact hne (List.forall₂_nil_right_iff.mp hcs)
      pairs := by simp [SynthesisCall.coefficients] }

theorem accepted_diagonal_iff :
    (diagonal τ angles register controls adjoint).Accepted frame qs ↔
      ∃ rs cs, qs = rs ++ cs ∧ DiagonalUnitary.Admits
        ⟨τ, angles, .list register, .list controls, adjoint⟩ frame rs cs := by
  constructor
  · intro h
    obtain ⟨rs, cs, hrs, hcs, rfl⟩ := names_append_iff.mp h.names
    exact ⟨rs, cs, rfl, {
      tolerance_ok := Tolerance.check_eq_ok_iff.mpr h.tolerance_ok
      register_ok := resolveAll_list_eq_ok_iff.mpr hrs
      controls_ok := resolveAll_list_eq_ok_iff.mpr hcs
      nonempty := by
        rintro rfl
        exact h.wellFormed (List.forall₂_nil_right_iff.mp hrs)
      distinct := h.distinct
      angles_fit := hrs.length_eq ▸ h.fits }⟩
  · rintro ⟨rs, cs, rfl, ha⟩
    have hrs := resolveAll_list_eq_ok_iff.mp ha.register_ok
    exact {
      tolerance_ok := Tolerance.check_eq_ok_iff.mp ha.tolerance_ok
      names := List.rel_append hrs (resolveAll_list_eq_ok_iff.mp ha.controls_ok)
      distinct := ha.distinct
      fits := by
        rw [width, hrs.length_eq]
        exact ha.angles_fit
      wellFormed := by
        rintro rfl
        exact ha.nonempty (List.forall₂_nil_left_iff.mp hrs)
      pairs := by simp [SynthesisCall.coefficients] }

theorem accepted_unpreparation_iff (hc : ∀ d ∈ coefficients, d.Numeric) :
    (unpreparation τ coefficients controls target).Accepted frame qs ↔
      ∃ cs t as, qs = cs ++ [t] ∧ Unpreparation.Admits
        ⟨τ, coefficients.map Entry.ofDatum, .list controls, target⟩ frame cs t as := by
  constructor
  · intro h
    obtain ⟨cs, _, hcs, hts, rfl⟩ := names_append_iff.mp h.names
    obtain ⟨t, _, ht, ⟨⟩, rfl⟩ := List.forall₂_cons_left_iff.mp hts
    obtain ⟨as, has⟩ := Entry.exists_pad hc h.pairs h.fits
    exact ⟨cs, t, as, rfl, {
      tolerance_ok := Tolerance.check_eq_ok_iff.mpr h.tolerance_ok
      controls_ok := resolveAll_list_eq_ok_iff.mpr hcs
      target_ok := resolve_eq_ok_iff.mpr ht
      distinct := h.distinct
      coefficients_ok := hcs.length_eq ▸ has }⟩
  · rintro ⟨cs, t, as, rfl, ha⟩
    have hcs := resolveAll_list_eq_ok_iff.mp ha.controls_ok
    have ht := resolve_eq_ok_iff.mp ha.target_ok
    obtain ⟨hl, hp⟩ := Entry.pairs_of_pad ha.coefficients_ok
    exact {
      tolerance_ok := Tolerance.check_eq_ok_iff.mp ha.tolerance_ok
      names := List.rel_append hcs (.cons ht .nil)
      distinct := ha.distinct
      fits := by
        rw [width, hcs.length_eq]
        exact hl
      wellFormed := id
      pairs := hp }

theorem accepted_preparation_iff (hc : ∀ d ∈ coefficients, d.Numeric) :
    (preparation τ coefficients register controls adjoint).Accepted frame qs ↔
      Tolerance.check τ = .ok () ∧ ∃ rs cs as, qs = rs ++ cs ∧ Preparation.Resolves
        ⟨τ, coefficients.map Entry.ofDatum, .list register, .list controls, adjoint⟩ frame rs cs ∧
        Entry.pad (dimension rs.length) (coefficients.map Entry.ofDatum) = .ok as := by
  constructor
  · intro h
    obtain ⟨rs, cs, hrs, hcs, rfl⟩ := names_append_iff.mp h.names
    obtain ⟨as, has⟩ := Entry.exists_pad hc h.pairs h.fits
    refine ⟨Tolerance.check_eq_ok_iff.mpr h.tolerance_ok, rs, cs, as, rfl, {
      register_ok := resolveAll_list_eq_ok_iff.mpr hrs
      controls_ok := resolveAll_list_eq_ok_iff.mpr hcs
      nonempty := by
        rintro rfl
        exact h.wellFormed (List.forall₂_nil_right_iff.mp hrs)
      distinct := h.distinct }, hrs.length_eq ▸ has⟩
  · rintro ⟨hτ, rs, cs, as, rfl, ha, has⟩
    have hrs := resolveAll_list_eq_ok_iff.mp ha.register_ok
    obtain ⟨hl, hp⟩ := Entry.pairs_of_pad has
    exact {
      tolerance_ok := Tolerance.check_eq_ok_iff.mp hτ
      names := List.rel_append hrs (resolveAll_list_eq_ok_iff.mp ha.controls_ok)
      distinct := ha.distinct
      fits := by
        rw [width, hrs.length_eq]
        exact hl
      wellFormed := by
        rintro rfl
        exact ha.nonempty (List.forall₂_nil_left_iff.mp hrs)
      pairs := hp }

theorem accepted_of_emitted (hc : ∀ d ∈ c.coefficients, d.Numeric) {gs : List (Gate α)}
    (h : c.emitted frame = .ok gs) : ∃ qs, c.Accepted frame qs := by
  cases c with
  | rotation τ angles axis controls target outer adjoint =>
    obtain ⟨axis', cs, os, t, ha⟩ := MultiplexedRotation.admits_of_gates h
    obtain rfl : axis = axis' := Except.ok.inj ((Axis.ofDatum_name axis).symm.trans ha.axis_ok)
    exact ⟨_, accepted_rotation_iff.mpr ⟨cs, os, t, rfl, ha⟩⟩
  | diagonal τ angles register controls adjoint =>
    obtain ⟨rs, cs, ha⟩ := DiagonalUnitary.admits_of_gates h
    exact ⟨_, accepted_diagonal_iff.mpr ⟨rs, cs, rfl, ha⟩⟩
  | unpreparation τ coefficients controls target =>
    obtain ⟨cs, t, as, ha⟩ := Unpreparation.admits_of_gates h
    exact ⟨_, (accepted_unpreparation_iff hc).mpr ⟨cs, t, as, rfl, ha⟩⟩
  | preparation τ coefficients register controls adjoint =>
    simp only [emitted, bind_eq_ok_iff] at h
    obtain ⟨_, hτ, gs, hg, -⟩ := h
    obtain ⟨rs, cs, as, ha, has⟩ := Preparation.resolves_of_gates? hg
    exact ⟨_, (accepted_preparation_iff hc).mpr ⟨hτ, rs, cs, as, rfl, ha, has⟩⟩

/-- The gates of an accepted call are on the qubits that its operands stand for. -/
theorem emitted_of_accepted (hc : ∀ d ∈ c.coefficients, d.Numeric) (h : c.Accepted frame qs) :
    ∃ gs, c.emitted frame = .ok gs ∧ Sequence.On qs gs := by
  cases c with
  | rotation τ angles axis controls target outer adjoint =>
    obtain ⟨cs, os, t, rfl, ha⟩ := accepted_rotation_iff.mp h
    exact ha.exists_gates
  | diagonal τ angles register controls adjoint =>
    obtain ⟨rs, cs, rfl, ha⟩ := accepted_diagonal_iff.mp h
    exact ha.exists_gates
  | unpreparation τ coefficients controls target =>
    obtain ⟨cs, t, as, rfl, ha⟩ := (accepted_unpreparation_iff hc).mp h
    exact ha.exists_gates
  | preparation τ coefficients register controls adjoint =>
    obtain ⟨hτ, rs, cs, as, rfl, ha, has⟩ := (accepted_preparation_iff hc).mp h
    obtain ⟨gs?, hgs, hon⟩ := ha.exists_gates? has
    refine ⟨_, bind_eq_ok_iff.mpr ⟨_, hτ, bind_eq_ok_iff.mpr ⟨_, hgs, rfl⟩⟩, ?_⟩
    cases gs? with
    | none => exact Sequence.on_nil _
    | some gs => exact hon gs rfl

theorem numeric_of_emitted {gs : List (Gate α)}
    (h : c.emitted frame = .ok gs) : ∀ d ∈ c.coefficients, d.Numeric := by
  cases c with
  | rotation => simp [coefficients]
  | diagonal => simp [coefficients]
  | unpreparation =>
    obtain ⟨_, _, _, ha⟩ := Unpreparation.admits_of_gates h
    exact Entry.numeric_of_pad ha.coefficients_ok
  | preparation =>
    obtain ⟨_, -, h⟩ := bind_eq_ok_iff.mp h
    obtain ⟨_, hg, -⟩ := bind_eq_ok_iff.mp h
    obtain ⟨_, _, _, -, has⟩ := Preparation.resolves_of_gates? hg
    exact Entry.numeric_of_pad has

/-! ## Calls in a session -/

variable {s : Session α} {n : Nat} {r : Sink α}

/-- A receiver takes whatever is emitted for it. -/
theorem takes_of_emitted {gs : List (Gate α)} (h : c.emitted r.circuit? = .ok gs) :
    ∀ g ∈ gs, r.Takes g := by
  have hc := numeric_of_emitted h
  obtain ⟨qs, ha⟩ := accepted_of_emitted hc h
  obtain ⟨hs, hhs, hon⟩ := emitted_of_accepted hc ha
  obtain rfl := Except.ok.inj (h.symm.trans hhs)
  exact hon.takes (Operands.mem_of_names ha.names)

theorem returns_perform (h : s.receivers[n]? = some r) {gs : List (Gate α)}
    (hg : c.emitted r.circuit? = .ok gs) (ht : ∀ g ∈ gs, r.Takes g) :
    Action.Returns (c.perform n) s ()
      { s with receivers := s.receivers.set n (r.extended gs) } := by
  cases c with
  | preparation τ coefficients register controls adjoint =>
    simp only [emitted, bind_eq_ok_iff] at hg
    obtain ⟨_, hτ, gs?, hgs, hget⟩ := hg
    cases hget
    cases gs? with
    | some gs => exact (Action.returns_prepare hτ h hgs ht).bind (Action.returns_pure () _)
    | none =>
      rw [Option.getD_none, Session.set_extended_nil h]
      exact (Action.returns_prepare_zero hτ h hgs).bind (Action.returns_pure () _)
  | _ => exact Action.returns_synthesize h hg ht

theorem fails_perform (h : s.receivers[n]? = some r) {f : Fault α}
    (hf : c.emitted r.circuit? = .error f) : Action.Fails (c.perform n) s f s := by
  cases c with
  | preparation τ coefficients register controls adjoint =>
    refine (Action.fails_prepare h ?_).bind _
    simp only [emitted, bind_eq_error_iff] at hf
    rcases hf with hτ | ⟨_, hτ, hg | ⟨_, _, ⟨⟩⟩⟩
    · exact Or.inl hτ
    · exact Or.inr ⟨hτ, hg⟩
  | _ => exact Action.fails_synthesize h hf

end SynthesisCall

/-- What it means that a call with the receiver `r`, of number `n`, checks everything before it
emits. -/
structure Validates (call : Action α Unit) (s : Session α) (n : Nat) (r : Sink α)
    (faulty : Prop) : Prop where
  /-- The call is refused as an invalid argument exactly if it is faulty. -/
  refused_iff : (∃ f t, Action.Fails call s f t ∧ f.category = .invalidArgument) ↔ faulty
  /-- A call that fails leaves the session as it was. -/
  keeps : ∀ f t, Action.Fails call s f t → t = s
  /-- A call that is not faulty returns, and the receiver has gained gates, each of which could be
  made and is one that the receiver takes. -/
  emits : ¬ faulty → ∃ gs, Action.Returns call s ()
      { s with receivers := s.receivers.set n (r.extended gs) } ∧
    ∀ g ∈ gs, Gate.make g.kind g.target g.controls g.angle = .ok g ∧ r.Takes g

open SynthesisCall in
/-- **Validation.** Every call of the synthesis whose coefficients are numbers checks everything
before it emits. -/
theorem synthesis_validates (c : SynthesisCall α) (hc : ∀ d ∈ c.coefficients, d.Numeric)
    {s : Session α} {n : Nat} {r : Sink α} (h : s.receivers[n]? = some r) :
    Validates (c.perform n) s n r (c.Faulty r.circuit?) := by
  have hfaulty : c.Faulty r.circuit? →
      ∃ f, f.category = .invalidArgument ∧ Action.Fails (c.perform n) s f s := by
    intro hf
    cases he : c.emitted r.circuit? with
    | error f => exact ⟨f, refuses_emitted _ hc f he, fails_perform h he⟩
    | ok gs => exact absurd hf (not_faulty_iff.mpr (accepted_of_emitted hc he))
  have hemits : ¬ c.Faulty r.circuit? → ∃ gs, Action.Returns (c.perform n) s ()
        { s with receivers := s.receivers.set n (r.extended gs) } ∧
      ∀ g ∈ gs, Gate.make g.kind g.target g.controls g.angle = .ok g ∧ r.Takes g := by
    intro hf
    obtain ⟨qs, ha⟩ := not_faulty_iff.mp hf
    obtain ⟨gs, hgs, hon⟩ := emitted_of_accepted hc ha
    have htakes : ∀ g ∈ gs, r.Takes g := hon.takes (Operands.mem_of_names ha.names)
    exact ⟨gs, returns_perform h hgs htakes, fun g hg =>
      ⟨Gate.make_of_wellFormed (hon g hg).toWellFormed, htakes g hg⟩⟩
  refine ⟨⟨?_, ?_⟩, ?_, hemits⟩
  · rintro ⟨f, t, hf, -⟩
    by_contra hn
    obtain ⟨gs, hr, -⟩ := hemits hn
    exact hr.not_fails hf
  · intro hf
    obtain ⟨f, hcat, hfail⟩ := hfaulty hf
    exact ⟨f, s, hfail, hcat⟩
  · intro f t hf
    by_cases hn : c.Faulty r.circuit?
    · obtain ⟨_, -, hfail⟩ := hfaulty hn
      exact (hf.unique hfail).2
    · obtain ⟨_, hr, -⟩ := hemits hn
      exact absurd hf hr.not_fails

/-- The first and the last qubit of a circuit of one qubit are the same. -/
theorem synthesis_validates_alias :
    ∃ f t, Action.Fails ((SynthesisCall.unpreparation (0 : ℝ) [.list [.number 1, .number 0]]
        [.integer 0] (.integer (-1))).perform 0)
        ⟨1, 0, [.circuit ⟨"main", [⟨0, "a"⟩], []⟩], [], 0, 0⟩ f t ∧
      f.category = .invalidArgument := by
  have hc : ∀ d ∈ [(.list [.number 1, .number 0] : Datum ℝ)], d.Numeric := by
    simp [Datum.Numeric, Datum.items?, Datum.toNumber, Datum.number?]
  have hnames : List.Forall₂ (Operands.Names (some ⟨"main", [⟨0, "a"⟩], []⟩))
      [(.integer 0 : Datum ℝ), .integer (-1)] [⟨0, "a"⟩, ⟨0, "a"⟩] :=
    .cons (.fromStart (k := 0) rfl rfl) (.cons (.fromEnd (k := 0) rfl rfl) .nil)
  have hfaulty : (SynthesisCall.unpreparation (0 : ℝ) [.list [.number 1, .number 0]] [.integer 0]
      (.integer (-1))).Faulty (some ⟨"main", [⟨0, "a"⟩], []⟩) := .repeated hnames (by decide)
  have hreceiver : (⟨1, 0, [.circuit ⟨"main", [⟨0, "a"⟩], []⟩], [], 0, 0⟩ :
      Session ℝ).receivers[0]? = some (.circuit ⟨"main", [⟨0, "a"⟩], []⟩) := rfl
  exact (synthesis_validates _ hc hreceiver).refused_iff.mpr hfaulty

end StateSynthesis
