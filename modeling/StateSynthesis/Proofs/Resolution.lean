import Mathlib
import StateSynthesis.Operands

/-!
What qubit operands stand for. Within a circuit an operand is one of its qubits, or an integer that
counts them from the start, or from the end if it is negative; without a circuit it is a qubit. An
operand that stands for nothing is refused as an invalid argument (`resolve_eq_ok_iff`,
`refuses_resolve`), and a list of operands resolves one by one (`resolveAll_eq_ok_iff`).
-/
namespace StateSynthesis

variable {α β γ δ : Type}

/-! ## Refusals -/

theorem bind_eq_ok_iff {x : Except (Fault α) β} {k : β → Except (Fault α) γ} {c : γ} :
    x >>= k = .ok c ↔ ∃ b, x = .ok b ∧ k b = .ok c := by
  cases x <;> simp [bind, Except.bind]

theorem bind_eq_error_iff {x : Except (Fault α) β} {k : β → Except (Fault α) γ} {f : Fault α} :
    x >>= k = .error f ↔ x = .error f ∨ ∃ b, x = .ok b ∧ k b = .error f := by
  cases x <;> simp [bind, Except.bind]

/-- A check in front of the rest of a computation. -/
theorem guard_eq_ok_iff {p : Prop} [Decidable p] {f : Fault α} {k : β → Except (Fault α) γ}
    {x : Except (Fault α) γ} {c : γ} :
    (if p then throw f >>= k else x) = .ok c ↔ ¬ p ∧ x = .ok c := by
  by_cases hp : p
  · simp only [hp, ↓reduceIte, not_true, false_and, iff_false]
    exact fun h => by cases h
  · simp [hp]

theorem mapM_eq_ok_iff {k : δ → Except (Fault α) β} {ds : List δ} {bs : List β} :
    ds.mapM k = .ok bs ↔ List.Forall₂ (fun d b => k d = .ok b) ds bs := by
  induction ds generalizing bs with
  | nil => cases bs <;> simp [pure, Except.pure]
  | cons d ds ih =>
    simp only [List.mapM_cons, bind_eq_ok_iff, ih]
    constructor
    · rintro ⟨b, hb, cs, hcs, ⟨⟩⟩
      exact .cons hb hcs
    · rintro (_ | ⟨hb, hbs⟩)
      exact ⟨_, hb, _, hbs, rfl⟩

theorem mapM_map_of_ok {f : β → δ} {k : δ → Except (Fault α) β} (h : ∀ b, k (f b) = .ok b)
    (bs : List β) : (bs.map f).mapM k = .ok bs := by
  rw [mapM_eq_ok_iff, List.forall₂_map_left_iff, List.forall₂_same]
  exact fun b _ => h b

theorem exists_forall₂ {R : δ → β → Prop} {ds : List δ} (h : ∀ d ∈ ds, ∃ b, R d b) :
    ∃ bs, List.Forall₂ R ds bs := by
  induction ds with
  | nil => exact ⟨[], .nil⟩
  | cons d ds ih =>
    obtain ⟨⟨b, hb⟩, hds⟩ := List.forall_mem_cons.mp h
    obtain ⟨bs, hbs⟩ := ih hds
    exact ⟨b :: bs, .cons hb hbs⟩

theorem exists_of_mem_forall₂ {R : δ → β → Prop} {ds : List δ} {bs : List β}
    (h : List.Forall₂ R ds bs) : ∀ d ∈ ds, ∃ b ∈ bs, R d b := by
  induction h with
  | nil => simp
  | cons hb _ ih =>
    refine List.forall_mem_cons.mpr ⟨⟨_, List.mem_cons_self .., hb⟩, fun d hd => ?_⟩
    obtain ⟨b, hm, hr⟩ := ih d hd
    exact ⟨b, List.mem_cons_of_mem _ hm, hr⟩

/-- Whatever goes wrong is an invalid argument. -/
def Refuses (x : Except (Fault α) β) : Prop := ∀ f, x = .error f → f.category = .invalidArgument

theorem refuses_ok (b : β) : Refuses (.ok b : Except (Fault α) β) := fun _ h => by cases h

theorem refuses_error {f : Fault α} (h : f.category = .invalidArgument) :
    Refuses (.error f : Except (Fault α) β) := fun _ hf => by cases hf; exact h

theorem Refuses.bind {x : Except (Fault α) β} {k : β → Except (Fault α) γ} (hx : Refuses x)
    (hk : ∀ b, Refuses (k b)) : Refuses (x >>= k) := by
  cases x with
  | error f => exact refuses_error (hx f rfl)
  | ok b => exact hk b

theorem refuses_guard {p : Prop} [Decidable p] {f : Fault α} {k : β → Except (Fault α) γ}
    {x : Except (Fault α) γ} (hf : f.category = .invalidArgument) (hx : Refuses x) :
    Refuses (if p then throw f >>= k else x) := by
  split
  · exact refuses_error hf
  · exact hx

theorem refuses_mapM {k : δ → Except (Fault α) β} {ds : List δ} (h : ∀ d ∈ ds, Refuses (k d)) :
    Refuses (ds.mapM k) := by
  induction ds with
  | nil => exact refuses_ok _
  | cons d ds ih =>
    rw [List.mapM_cons]
    obtain ⟨hd, hds⟩ := List.forall_mem_cons.mp h
    exact hd.bind fun b => (ih hds).bind fun bs => refuses_ok _

/-! ## Operands -/

theorem Qubit.at?_eq_some_iff {qs : List Qubit} {i : Int} {q : Qubit} :
    Qubit.at? qs i = some q ↔ (∃ k : Nat, i = k ∧ qs[k]? = some q) ∨
      ∃ k : Nat, i = -(k + 1) ∧ qs.reverse[k]? = some q := by
  unfold at?
  split
  · rename_i hi
    constructor
    · exact fun h => Or.inl ⟨i.toNat, by omega, h⟩
    · rintro (⟨k, rfl, h⟩ | ⟨k, rfl, h⟩)
      · exact h
      · omega
  · rename_i hi
    split
    · rename_i hl
      have hk : (-i - 1).toNat < qs.length := by omega
      have hflip : qs.length - 1 - (-i - 1).toNat = (qs.length + i).toNat := by omega
      constructor
      · intro h
        refine Or.inr ⟨(-i - 1).toNat, by omega, ?_⟩
        rw [List.getElem?_reverse hk, hflip]
        exact h
      · rintro (⟨k, rfl, h⟩ | ⟨k, rfl, h⟩)
        · omega
        · rw [← hflip, ← List.getElem?_reverse hk]
          have he : (- -((k : Int) + 1) - 1).toNat = k := by omega
          rw [he]
          exact h
    · rename_i hl
      refine ⟨fun h => (by cases h), ?_⟩
      rintro (⟨k, rfl, h⟩ | ⟨k, rfl, h⟩)
      · omega
      · have hk := (List.getElem?_eq_some_iff.mp h).1
        rw [List.length_reverse] at hk
        omega

namespace Operands

/-- The operand `d` stands for the qubit `q`, in a circuit or without one. -/
inductive Names : Option (Circuit α) → Datum α → Qubit → Prop
  | free (q : Qubit) : Names none (.qubit q) q
  | member {c : Circuit α} {q : Qubit} (hq : q ∈ c.qubits) : Names (some c) (.qubit q) q
  | fromStart {c : Circuit α} {d : Datum α} {q : Qubit} {k : Nat} (hd : d.integer? = some (k : Int))
    (hq : c.qubits[k]? = some q) : Names (some c) d q
  | fromEnd {c : Circuit α} {d : Datum α} {q : Qubit} {k : Nat}
    (hd : d.integer? = some (-(k + 1) : Int)) (hq : c.qubits.reverse[k]? = some q) :
    Names (some c) d q

theorem asQubit_eq_ok_iff {d : Datum α} {q : Qubit} : asQubit d = .ok q ↔ d = .qubit q := by
  cases d <;> simp [asQubit, Datum.qubit?]

theorem lookUp_eq_ok_iff {c : Circuit α} {d e : Datum α} : lookUp c d = .ok e ↔
    d.integer? = none ∧ e = d ∨
      ∃ i q, d.integer? = some i ∧ c.qubitAt? i = some q ∧ e = .qubit q := by
  unfold lookUp
  cases d.integer? with
  | none => simp [eq_comm]
  | some i =>
    cases hq : c.qubitAt? i with
    | none => simp [hq]
    | some q => simp [hq, eq_comm]

theorem resolve_eq_ok_iff {frame : Option (Circuit α)} {d : Datum α} {q : Qubit} :
    resolve frame d = .ok q ↔ Names frame d q := by
  cases frame with
  | none =>
    refine asQubit_eq_ok_iff.trans ⟨?_, ?_⟩
    · rintro rfl
      exact .free q
    · rintro ⟨⟩
      rfl
  | some c =>
    have hmem : resolve (some c) d = .ok q ↔ lookUp c d = .ok (.qubit q) ∧ q ∈ c.qubits := by
      simp only [resolve, bind_eq_ok_iff, asQubit_eq_ok_iff]
      constructor
      · rintro ⟨_, he, r, rfl, hr⟩
        split at hr
        · rename_i hc
          cases hr
          exact ⟨he, by simpa using hc⟩
        · cases hr
      · rintro ⟨he, hq⟩
        exact ⟨_, he, q, rfl, if_pos (by simpa using hq)⟩
    rw [hmem, lookUp_eq_ok_iff]
    constructor
    · rintro ⟨⟨_, rfl⟩ | ⟨i, r, hi, hr, ⟨⟩⟩, hq⟩
      · exact .member hq
      · rcases Qubit.at?_eq_some_iff.mp hr with ⟨k, rfl, hk⟩ | ⟨k, rfl, hk⟩
        · exact .fromStart hi hk
        · exact .fromEnd hi hk
    · rintro (_ | hq | ⟨hd, hq⟩ | ⟨hd, hq⟩)
      · exact ⟨Or.inl ⟨rfl, rfl⟩, hq⟩
      · exact ⟨Or.inr ⟨_, q, hd, Qubit.at?_eq_some_iff.mpr (Or.inl ⟨_, rfl, hq⟩), rfl⟩,
          List.mem_of_getElem? hq⟩
      · exact ⟨Or.inr ⟨_, q, hd, Qubit.at?_eq_some_iff.mpr (Or.inr ⟨_, rfl, hq⟩), rfl⟩,
          List.mem_reverse.mp (List.mem_of_getElem? hq)⟩

theorem Names.unique {frame : Option (Circuit α)} {d : Datum α} {q r : Qubit}
    (hq : Names frame d q) (hr : Names frame d r) : q = r :=
  Except.ok.inj ((resolve_eq_ok_iff.mpr hq).symm.trans (resolve_eq_ok_iff.mpr hr))

theorem refuses_resolve (frame : Option (Circuit α)) (d : Datum α) : Refuses (resolve frame d) := by
  have hq (e : Datum α) : Refuses (asQubit e) := by
    unfold asQubit
    split
    · exact refuses_ok _
    · exact refuses_error rfl
  cases frame with
  | none => exact hq d
  | some c =>
    refine Refuses.bind ?_ fun e => (hq e).bind fun q => ?_
    · unfold lookUp
      split
      · exact refuses_ok _
      · split
        · exact refuses_ok _
        · exact refuses_error rfl
    · split
      · exact refuses_ok _
      · exact refuses_error rfl

theorem Names.mem {frame : Option (Circuit α)} {d : Datum α} {q : Qubit} (h : Names frame d q) :
    ∀ c ∈ frame, q ∈ c.qubits := by
  rintro c ⟨⟩
  cases h with
  | member hq => exact hq
  | fromStart _ hq => exact List.mem_of_getElem? hq
  | fromEnd _ hq => exact List.mem_reverse.mp (List.mem_of_getElem? hq)

/-! ## Lists of operands -/

theorem resolveAll_eq_ok_iff {frame : Option (Circuit α)} {d : Datum α} {qs : List Qubit} :
    resolveAll frame d = .ok qs ↔ ∃ ds, d.items = .ok ds ∧ List.Forall₂ (Names frame) ds qs := by
  simp only [resolveAll, bind_eq_ok_iff, mapM_eq_ok_iff, resolve_eq_ok_iff]

theorem resolveAll_list_eq_ok_iff {frame : Option (Circuit α)} {ds : List (Datum α)}
    {qs : List Qubit} :
    resolveAll frame (.list ds) = .ok qs ↔ List.Forall₂ (Names frame) ds qs := by
  simp [resolveAll_eq_ok_iff, Datum.items, Datum.items?]

theorem mem_of_names {frame : Option (Circuit α)} {ds : List (Datum α)} {qs : List Qubit}
    (h : List.Forall₂ (Names frame) ds qs) : ∀ c ∈ frame, ∀ q ∈ qs, q ∈ c.qubits := by
  intro c hc q hq
  induction h with
  | nil => cases hq
  | cons hn _ ih =>
    rcases List.mem_cons.mp hq with rfl | hq
    · exact hn.mem c hc
    · exact ih hq

/-- Operands that are resolved in a circuit are qubits of the circuit. -/
theorem mem_of_resolveAll {frame : Option (Circuit α)} {d : Datum α} {qs : List Qubit}
    (h : resolveAll frame d = .ok qs) : ∀ c ∈ frame, ∀ q ∈ qs, q ∈ c.qubits := by
  obtain ⟨ds, -, hds⟩ := resolveAll_eq_ok_iff.mp h
  exact mem_of_names hds

theorem resolveAll_qubits {c : Circuit α} {qs : List Qubit} (h : ∀ q ∈ qs, q ∈ c.qubits) :
    resolveAll (some c) (.list (qs.map Datum.qubit)) = .ok qs := by
  rw [resolveAll_list_eq_ok_iff, List.forall₂_map_left_iff, List.forall₂_same]
  exact fun q hq => .member (h q hq)

theorem names_append_iff {frame : Option (Circuit α)} {ds es : List (Datum α)} {rs : List Qubit} :
    List.Forall₂ (Names frame) (ds ++ es) rs ↔ ∃ ps qs, List.Forall₂ (Names frame) ds ps ∧
      List.Forall₂ (Names frame) es qs ∧ rs = ps ++ qs := by
  constructor
  · intro h
    induction ds generalizing rs with
    | nil => exact ⟨[], rs, .nil, h, rfl⟩
    | cons d ds ih =>
      obtain ⟨p, rs, hp, hrs, rfl⟩ := List.forall₂_cons_left_iff.mp h
      obtain ⟨ps, qs, hps, hqs, rfl⟩ := ih hrs
      exact ⟨p :: ps, qs, .cons hp hps, hqs, rfl⟩
  · rintro ⟨ps, qs, hps, hqs, rfl⟩
    exact List.rel_append hps hqs

theorem refuses_resolveAll (frame : Option (Circuit α)) (ds : List (Datum α)) :
    Refuses (resolveAll frame (.list ds)) := refuses_mapM fun d _ => refuses_resolve frame d

theorem names_unique {frame : Option (Circuit α)} {ds : List (Datum α)} {qs rs : List Qubit}
    (hq : List.Forall₂ (Names frame) ds qs) (hr : List.Forall₂ (Names frame) ds rs) : qs = rs :=
  List.right_unique_forall₂' (fun _ _ _ h => h.unique) hq hr

theorem nodup_of_distinct {qs : List Qubit} {u : Unit}
    (h : (distinct qs : Except (Fault α) Unit) = .ok u) : qs.Nodup := by
  unfold distinct at h
  split at h
  · assumption
  · cases h

theorem refuses_distinct (qs : List Qubit) : Refuses (distinct qs : Except (Fault α) Unit) := by
  unfold distinct
  split
  · exact refuses_ok _
  · exact refuses_error rfl

end Operands

end StateSynthesis
