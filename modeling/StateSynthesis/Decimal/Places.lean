import StateSynthesis.Decimal.Shortest

/-!
Rounding to a number of decimal places before printing: scale up, round to the nearest integer with
a half going to the even one, scale back. Each of the three steps rounds in binary.
-/
namespace StateSynthesis.Decimal

/-- Adding and subtracting `2 ^ 52` rounds away everything behind the point. The sign is kept, also
that of a zero. -/
def roundEven (x : Float) : Float :=
  let shift := Float.scaleB 1.0 52
  if x.abs < shift then
    let r := (x.abs + shift) - shift
    if x.toBits.toNat / pow2 63 == 1 then -r else r
  else x

def toPlaces (places : Nat) (x : Float) : Float :=
  let unit := Float.ofNat (pow10 places)
  roundEven (x * unit) / unit

end StateSynthesis.Decimal
