import StateSynthesis.Amplitude.Basic

/-!
Entries of a coefficient vector as they are handed over: an amplitude, or something else that may
or may not unpack into a magnitude and a phase. An entry is an amplitude or the reason why not, and
the reasons come up in the order of the vector.
-/
namespace StateSynthesis

abbrev Entry (α : Type) := Except (Fault α) (Amplitude α)

namespace Entry

variable {α : Type} [Scalar α]

def ofDatum (d : Datum α) : Except (Fault α) (Amplitude α) :=
  match d.items? with
  | some [magnitude, phase] => do return ⟨← magnitude.toNumber, ← phase.toNumber⟩
  | _ => .error (.notAPair d)

def resolve (entries : List (Entry α)) : Except (Fault α) (List (Amplitude α)) := entries.mapM id

/-- The entries as amplitudes, with zeros up to the length `n`, which the caller gave as
`length`. -/
def padAs (length : Datum α) (n : Nat) (entries : List (Entry α)) :
    Except (Fault α) (List (Amplitude α)) := do
  let as ← resolve entries
  if n < as.length then throw (.tooManyCoefficients as.length length)
  return Amplitude.padTo n as

def pad (n : Nat) (entries : List (Entry α)) : Except (Fault α) (List (Amplitude α)) :=
  padAs (.integer n) n entries

def isPowerOfTwo (n : Nat) : Bool := n != 0 && n &&& (n - 1) == 0

/-- As `pad`, for a length of any type, which has to be a power of two. -/
def padFor (length : Datum α) (entries : List (Entry α)) :
    Except (Fault α) (List (Amplitude α)) :=
  match length.integer? with
  | some n =>
    if isPowerOfTwo n.toNat then padAs length n.toNat entries else .error (.paddingLength length)
  | none => match length.number? with
    | some x => if Scalar.lt x Scalar.one then .error (.paddingLength length) else .error .wrongType
    | none => .error .wrongType

end Entry

end StateSynthesis
