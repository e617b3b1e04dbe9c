import StateSynthesis.Decimal.Exact
import StateSynthesis.Text.Blank
import StateSynthesis.Text.Digit

/-!
Reading a number: blanks around it, a sign, digits of any script with a point and an exponent, and
single underscores between two digits. Infinity and the absent number have names, in any case.
-/
namespace StateSynthesis.Decimal

/-- The number nearest to `mantissa · 10 ^ exponent`. Far outside the range the power of ten is not
computed. -/
def nearest (mantissa : Nat) (exponent : Int) : Float :=
  let leading := exponent + (digits mantissa).length
  if mantissa == 0 || leading < -340 then 0.0
  else if 320 < leading then 1.0 / 0.0
  else Float.ofScientific mantissa (exponent < 0) exponent.natAbs

def natOfDigits (ds : List Char) : Nat := ds.foldl (fun n d => 10 * n + (d.toNat - 48)) 0

/-- Removes the underscores; each has to stand between two digits. -/
def joinGroups (before : Char) : List Char → Option (List Char)
  | [] => if before == '_' then none else some []
  | c :: cs =>
    if c == '_' then
      if before.isDigit then joinGroups c cs else none
    else if before == '_' && !c.isDigit then none
    else (joinGroups c cs).map (c :: ·)

def splitSign : List Char → Bool × List Char
  | '-' :: cs => (true, cs)
  | '+' :: cs => (false, cs)
  | cs => (false, cs)

/-- The exponent behind the digits: nothing, or a mark and a signed integer. -/
def exponent? : List Char → Option Int
  | [] => some 0
  | c :: cs =>
    if c == 'e' || c == 'E' then
      let (negative, ds) := splitSign cs
      if ds.isEmpty || !ds.all Char.isDigit then none
      else some (if negative then -(natOfDigits ds : Int) else natOfDigits ds)
    else none

def fraction (cs : List Char) : List Char × List Char :=
  match cs with
  | '.' :: cs => (cs.takeWhile Char.isDigit, cs.dropWhile Char.isDigit)
  | cs => ([], cs)

def unsigned? (cs : List Char) : Option Float :=
  let name := String.ofList (cs.map Char.toLower)
  if name == "inf" || name == "infinity" then some (1.0 / 0.0)
  else if name == "nan" then some (0.0 / 0.0)
  else
    let whole := cs.takeWhile Char.isDigit
    let (part, rest) := fraction (cs.dropWhile Char.isDigit)
    if whole.isEmpty && part.isEmpty then none
    else (exponent? rest).map fun e => nearest (natOfDigits (whole ++ part)) (e - part.length)

def number? (s : String) : Option Float := do
  let cs ← joinGroups ' ' (Text.trim (s.toList.map Text.plainDigit))
  let (negative, cs) := splitSign cs
  let x ← unsigned? cs
  return if negative then -x else x

end StateSynthesis.Decimal
