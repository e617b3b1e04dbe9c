import StateSynthesis.Decimal.Rounded

/-!
The shortest decimal text of a number: the fewest digits that lie between the midpoints to the two
neighbouring numbers, and of those the nearest to the value. Between 10⁻⁴ and 10¹⁶ the text is
positional and has a point.
-/
namespace StateSynthesis.Decimal

/-- The reals that round to a number, in units of a quarter of its last place. Below a power of two
the neighbour is half as far; the ends belong to the interval iff the mantissa is even. -/
structure Interval where
  lower : Nat
  upper : Nat
  exponent : Int
  closed : Bool

def Exact.interval (e : Exact) : Interval :=
  let narrow := e.mantissa == pow2 52 && e.exponent != -1074
  { lower := 4 * e.mantissa - (if narrow then 1 else 2)
    upper := 4 * e.mantissa + 2
    exponent := e.exponent - 2
    closed := e.mantissa % 2 == 0 }

/-- Compares `c · 10 ^ p` with `m · 2 ^ q`. -/
def compareDecimal (c : Nat) (p : Int) (m : Nat) (q : Int) : Ordering :=
  compare (c * pow10 p.toNat * pow2 (-q).toNat) (m * pow2 q.toNat * pow10 (-p).toNat)

def Interval.contains (i : Interval) (c : Nat) (p : Int) : Bool :=
  let low := compareDecimal c p i.lower i.exponent
  let high := compareDecimal c p i.upper i.exponent
  (low == .gt || (i.closed && low == .eq)) && (high == .lt || (i.closed && high == .eq))

/-- The decimal with the last digit at `10 ^ p` that reads back as the value, the nearer one where
both neighbours do. -/
def onGrid? (e : Exact) (p : Int) : Option Nat :=
  let (n, d) := scale e.ratio.1 e.ratio.2 (-p)
  let f := n / d
  match e.interval.contains f p, e.interval.contains (f + 1) p with
  | true, true => some (roundQuotient n d)
  | true, false => some f
  | false, true => some (f + 1)
  | false, false => none

def searchGrids (e : Exact) (leading : Int) : Nat → Nat → Nat × Int
  | 0, _ => (0, 0)
  | fuel + 1, k =>
    let p := leading - k
    match onGrid? e p with
    | some c => (c, p)
    | none => searchGrids e leading fuel (k + 1)

def stripZeros : List Char → List Char :=
  fun ds => (ds.reverse.dropWhile (· == '0')).reverse

/-- The digits and the exponent of the first of them. Seventeen digits always suffice. -/
def shortestDigits (e : Exact) : List Char × Int :=
  let (c, p) := searchGrids e (leadingExponent e.ratio.1 e.ratio.2) 18 0
  let ds := digits c
  (stripZeros ds, p + ds.length - 1)

/-- Positional notation of the digits `ds`, the first of which stands at `10 ^ e`. -/
def plain (ds : List Char) (e : Int) : String :=
  if e < 0 then
    "0." ++ String.ofList (List.replicate (-e - 1).toNat '0' ++ ds)
  else
    let whole := e.toNat + 1
    let rest := ds.drop whole
    String.ofList (ds.take whole ++ List.replicate (whole - ds.length) '0') ++ "."
      ++ (if rest.isEmpty then "0" else String.ofList rest)

def shortest (x : Float) : String :=
  match decode x with
  | .notANumber => "nan"
  | .infinite negative => sign negative ++ "inf"
  | .finite v =>
    if v.mantissa == 0 then sign v.negative ++ "0.0"
    else
      let (ds, e) := shortestDigits v
      sign v.negative ++
        (if -4 ≤ e && e < 16 then plain ds e else pointed ds ++ "e" ++ exponentText e)

end StateSynthesis.Decimal
