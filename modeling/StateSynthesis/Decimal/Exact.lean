/-!
The exact value of a binary floating-point number, and rounding of exact quotients. Everything that
prints a number goes through these integers.
-/
namespace StateSynthesis.Decimal

def pow2 (n : Nat) : Nat := Nat.pow 2 n
def pow10 (n : Nat) : Nat := Nat.pow 10 n

/-- The value `mantissa · 2 ^ exponent` with a sign, which zero has as well. -/
structure Exact where
  negative : Bool
  mantissa : Nat
  exponent : Int

inductive Reading where
  | finite (value : Exact)
  | infinite (negative : Bool)
  | notANumber

/-- Splits the 64 bits into sign, exponent and fraction. The least exponent belongs to the
subnormal numbers, which lack the leading one. -/
def decode (x : Float) : Reading :=
  let bits := x.toBits.toNat
  let negative := bits / pow2 63 == 1
  let biased : Nat := bits / pow2 52 % pow2 11
  let fraction : Nat := bits % pow2 52
  if biased == 2047 then
    if fraction == 0 then .infinite negative else .notANumber
  else if biased == 0 then .finite ⟨negative, fraction, -1074⟩
  else .finite ⟨negative, fraction + pow2 52, (biased : Int) - 1075⟩

/-- The absolute value as a fraction. -/
def Exact.ratio (e : Exact) : Nat × Nat :=
  (e.mantissa * pow2 e.exponent.toNat, pow2 (-e.exponent).toNat)

/-- The integer with this value, if it is whole. -/
def Exact.integer? (e : Exact) : Option Int :=
  let (num, den) := e.ratio
  if num % den = 0 then some (if e.negative then -(num / den : Nat) else (num / den : Nat))
  else none

/-- The integer nearest to `num / den`; a tie goes to the even one. -/
def roundQuotient (num den : Nat) : Nat :=
  let q := num / den
  let r := num % den
  if 2 * r < den then q
  else if den < 2 * r then q + 1
  else q + q % 2

def digits (n : Nat) : List Char := Nat.toDigits 10 n

/-- `num / den` times `10 ^ places`, as a fraction. -/
def scale (num den : Nat) (places : Int) : Nat × Nat :=
  (num * pow10 places.toNat, den * pow10 (-places).toNat)

/-- The exponent of the leading decimal digit of a positive fraction. The lengths of numerator and
denominator leave two candidates. -/
def leadingExponent (num den : Nat) : Int :=
  let guess : Int := (digits num).length - (digits den).length
  let (n, d) := scale num den (-guess)
  if d ≤ n then guess else guess - 1

end StateSynthesis.Decimal
