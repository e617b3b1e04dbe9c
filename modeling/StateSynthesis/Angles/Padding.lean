import StateSynthesis.Angles
import StateSynthesis.Scalar.Binary

/-!
Padding for a number of controls of any type. The number of states is a power of two, which is a
real if the number of controls is negative or no integer; a real can be exceeded, but is no length.
-/
namespace StateSynthesis.Angles

def padForStates (states : Float) (controls : Datum Float) (xs : List Float) :
    Except (Fault Float) (List Float) :=
  if states < Float.ofNat xs.length then
    .error (.tooManyAngles xs.length controls (.number states))
  else .error .wrongType

def padFor (controls : Datum Float) (xs : List Float) : Except (Fault Float) (List Float) :=
  match controls, controls.integer? with
  | _, some k =>
    if 0 ≤ k then
      if dimension k.toNat < xs.length then
        .error (.tooManyAngles xs.length controls (.integer (dimension k.toNat)))
      else .ok (padTo (dimension k.toNat) xs)
    else padForStates (Float.scaleB 1.0 k) controls xs
  | .number x, none =>
    let states := Float.pow 2.0 x
    if x.isFinite && !states.isFinite then .error .squareOverflow
    else padForStates states controls xs
  | _, none => .error .wrongType

end StateSynthesis.Angles
