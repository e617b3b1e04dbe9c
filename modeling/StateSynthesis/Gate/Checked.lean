import StateSynthesis.Fault

/-!
Gates from arguments. The checks come in a fixed order: kind, presence and type of the target, the
controls one by one, then overlap and repetition, and last the angle. What passes is well formed
(`make_wellFormed`).
-/
namespace StateSynthesis

variable {α : Type}

def Kind.ofDatum : Datum α → Except (Fault α) Kind
  | .text label => match Kind.ofName? label with
    | some k => .ok k
    | none => .error (.notAKind (.text label))
  | d => .error (.notAKind d)

def Axis.ofDatum : Datum α → Except (Fault α) Axis
  | .text label => match Axis.ofName? label with
    | some a => .ok a
    | none => .error (.notAnAxis (.text label))
  | d => .error (.notAnAxis d)

namespace Gate

variable [Scalar α]

/-- The first qubit of a target that is among the controls. -/
def overlap? (target : Option Qubit) (controls : List Qubit) : Option Qubit :=
  target.filter controls.contains

def make (kind : Kind) (target : Option Qubit) (controls : List Qubit) (angle : α) :
    Except (Fault α) (Gate α) :=
  if target.isNone && kind != .gphase then .error (.missingTarget kind)
  else match overlap? target controls with
    | some q => .error (.selfControlled q)
    | none =>
      if controls.Nodup then .ok ⟨kind, target, controls, angleFor kind angle⟩
      else .error .repeatedControl

theorem make_wellFormed {kind : Kind} {target : Option Qubit} {controls : List Qubit} {angle : α}
    {g : Gate α} (h : make kind target controls angle = .ok g) : g.WellFormed := by
  unfold make at h
  split at h
  · cases h
  · rename_i hk
    split at h
    · cases h
    · rename_i ho
      split at h
      · rename_i hn
        cases h
        refine ⟨?_, ?_, hn, fun hp => by simp [angleFor, hp]⟩
        · cases target with
          | none => simpa using hk
          | some q => simp
        · intro q hq hc
          simp only [Option.mem_def] at hq
          subst hq
          simp [overlap?, Option.filter, hc] at ho
      · cases h

def controlOf (d : Datum α) : Except (Fault α) Qubit :=
  match d.qubit? with
  | some q => .ok q
  | none => .error (.controlType d)

def targetOf (kind : Kind) : Datum α → Except (Fault α) (Option Qubit)
  | .absent => if kind == .gphase then .ok none else .error (.missingTarget kind)
  | .qubit q => .ok (some q)
  | d => .error (.targetType d)

/-- A kind without a parameter does not look at the angle. -/
def ofOperands (kind : Kind) (target : Datum α) (controls : Except (Fault α) (List (Datum α)))
    (angle : Except (Fault α) α) : Except (Fault α) (Gate α) := do
  let target ← targetOf kind target
  let controls ← (← controls).mapM controlOf
  let g ← make kind target controls Scalar.zero
  if kind.isParametrized then return { g with angle := ← angle } else return g

def ofData (kind target controls : Datum α) (angle : α) : Except (Fault α) (Gate α) := do
  ofOperands (← Kind.ofDatum kind) target controls.items (.ok angle)

/-- A gate of a kind from its arguments in order: the angle where the kind has one, the target
where it has one, and the controls, which may be left out. -/
def ofArguments (kind : Kind) (arguments : List (Datum α)) : Except (Fault α) (Gate α) :=
  match kind, kind.isParametrized, arguments with
  | .gphase, _, angle :: rest => finish .absent rest angle.toNumber
  | _, true, angle :: target :: rest => finish target rest angle.toNumber
  | _, false, target :: rest => finish target rest (.ok Scalar.zero)
  | _, _, _ => .error .wrongType
where
  finish (target : Datum α) (rest : List (Datum α)) (angle : Except (Fault α) α) :
      Except (Fault α) (Gate α) :=
    match rest with
    | [] => ofOperands kind target (.ok []) angle
    | [controls] => ofOperands kind target controls.items angle
    | _ => .error .wrongType

/-- The gate under additional controls. -/
def controlBy (cs : List (Datum α)) (g : Gate α) : Except (Fault α) (Gate α) := do
  make g.kind g.target ((← cs.mapM controlOf) ++ g.controls) g.angle

/-- A value that is used like a gate. -/
def ofDatum (d : Datum α) : Except (Fault α) (Gate α) :=
  match d.gate? with
  | some g => .ok g
  | none => .error .noSuchOperation

end Gate

namespace Sequence

variable [Scalar α]

/-- Without controls nothing is asked of the gates. -/
def controlBy (cs : List (Datum α)) (gs : List (Gate α)) : Except (Fault α) (List (Gate α)) :=
  if cs.isEmpty then .ok gs else gs.mapM (Gate.controlBy cs)

end Sequence

end StateSynthesis
