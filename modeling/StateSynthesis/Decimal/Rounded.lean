import StateSynthesis.Decimal.Exact

/-!
Decimal notation with a fixed number of places: scientific with a given number of digits after the
point, and positional with a given number of places. Both round the exact value once, a half to the
even neighbour.
-/
namespace StateSynthesis.Decimal

def sign (negative : Bool) : String := if negative then "-" else ""

/-- An exponent has a sign and at least two digits. -/
def exponentText (e : Int) : String :=
  let n := digits e.natAbs
  (if e < 0 then "-" else "+") ++ String.ofList (List.replicate (2 - n.length) '0' ++ n)

/-- One digit, the point, the other digits. -/
def pointed : List Char → String
  | [] => ""
  | [d] => d.toString
  | d :: ds => String.ofList (d :: '.' :: ds)

/-- Rounding up to the next power of ten moves the exponent. -/
def scientificDigits (places : Nat) (num den : Nat) : List Char × Int :=
  let e := leadingExponent num den
  let (n, d) := scale num den (places - e)
  let q := roundQuotient n d
  if q < pow10 (places + 1) then (digits q, e) else (digits (q / 10), e + 1)

def scientific (places : Nat) (x : Float) : String :=
  match decode x with
  | .notANumber => "nan"
  | .infinite negative => sign negative ++ "inf"
  | .finite v =>
    let (ds, e) :=
      if v.mantissa == 0 then (List.replicate (places + 1) '0', 0)
      else scientificDigits places v.ratio.1 v.ratio.2
    sign v.negative ++ pointed ds ++ "e" ++ exponentText e

/-- The digits of `n` with a point before the last `places` of them. -/
def pointFromRight (places n : Nat) : String :=
  let ds := digits n
  let ds := List.replicate (places + 1 - ds.length) '0' ++ ds
  String.ofList (ds.take (ds.length - places) ++ '.' :: ds.drop (ds.length - places))

/-- A value that rounds to zero has no sign. -/
def positional (places : Nat) (x : Float) : String :=
  match decode x with
  | .notANumber => "nan"
  | .infinite negative => sign negative ++ "inf"
  | .finite v =>
    let (n, d) := scale v.ratio.1 v.ratio.2 places
    let q := roundQuotient n d
    sign (v.negative && q != 0) ++ pointFromRight places q

end StateSynthesis.Decimal
