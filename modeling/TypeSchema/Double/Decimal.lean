/-
  The text of a double: the fewest digits that read back, written without an exponent.

  A finite double is `m * 2^q`. The reals that round to it form an interval around it, whose
  ends belong to it when `m` is even. For one digit, two digits and so on, the two points of that
  decimal grid around the value are tried, and the first grid with a point in the interval gives
  the digits.
-/
import TypeSchema.Double.Basic

namespace TypeSchema

namespace Double

/-- A positive decimal `digits * 10^exponent`. -/
structure Decimal where
  digits : Nat
  exponent : Int
deriving DecidableEq, Inhabited

/-- The significand and the power of two of a finite double's size. -/
def parts (x : Double) : Nat × Int :=
  if x.exponent = 0 then (x.fraction, -1074)
  else ((1 <<< 52) + x.fraction, (x.exponent : Int) - 1075)

/-- The reals that round to a double, in quarters of the double's unit: `low / den` to
`high / den` with the value at `mid / den`. -/
structure Interval where
  low : Nat
  mid : Nat
  high : Nat
  den : Nat
  closed : Bool

def interval (x : Double) : Interval :=
  let (m, q) := x.parts
  -- below a power of two the neighbour is only half as far away
  let below := if x.fraction = 0 ∧ 1 < x.exponent then 1 else 2
  let shift := (q - 2).toNat
  { low := (4 * m - below) <<< shift
    mid := (4 * m) <<< shift
    high := (4 * m + 2) <<< shift
    den := 1 <<< (2 - q).toNat
    closed := m % 2 = 0 }

/-- Whether `num / den` lies in the interval. -/
def Interval.holds (i : Interval) (num den : Nat) : Bool :=
  if i.closed then i.low * den ≤ num * i.den && num * i.den ≤ i.high * den
  else i.low * den < num * i.den && num * i.den < i.high * den

/-- The point of the grid `10^e` that lies in the interval and is nearest to its value, the
upper one of two at the same distance. -/
def Interval.point? (i : Interval) (e : Int) : Option Decimal :=
  let up := Nat.pow 10 e.toNat
  let down := Nat.pow 10 (-e).toNat
  let below := i.mid * down / (i.den * up)
  let above := below + 1
  -- twice the value against the sum of the two points
  let nearer := (below + above) * (up * i.den) ≤ 2 * i.mid * down
  let lower := below ≠ 0 && i.holds (below * up) down
  let upper := i.holds (above * up) down
  if upper && (nearer || !lower) then some ⟨above, e⟩
  else if lower then some ⟨below, e⟩
  else none

/-- The least power of ten above the value, looked for from `10^(-323)` upwards. -/
def Interval.magnitude (i : Interval) : Int :=
  let below (k : Nat) : Bool :=
    let e : Int := (k : Int) - 323
    i.mid * Nat.pow 10 (-e).toNat < i.den * Nat.pow 10 e.toNat
  ((List.range 633).find? below).getD 632 - 323

/-- Drops the last digit if it is a zero, as it is when a nine was rounded up. -/
def Decimal.trim (d : Decimal) : Decimal :=
  if d.digits % 10 = 0 then ⟨d.digits / 10, d.exponent + 1⟩ else d

/-- The shortest decimal that rounds to the positive finite double `x`: seventeen digits always
suffice. -/
def shortest (x : Double) : Decimal :=
  let i := x.interval
  let top := i.magnitude
  ((List.range 17).findSome? fun (k : Nat) => i.point? (top - 1 - k)).getD ⟨0, 0⟩ |>.trim

/-- The digits with a point and zeros where the power of ten wants them. -/
def Decimal.toText (d : Decimal) : String :=
  let digits := Nat.toDigits 10 d.digits
  if 0 ≤ d.exponent then String.ofList (digits ++ List.replicate d.exponent.toNat '0')
  else
    let places := (-d.exponent).toNat
    let padded := List.replicate (places + 1 - digits.length) '0' ++ digits
    let whole := padded.length - places
    String.ofList (padded.take whole ++ '.' :: padded.drop whole)

def toText (x : Double) : String :=
  if x.isNaN then "NaN"
  else
    let sign := if x.isNegative then "-" else ""
    if !x.isFinite then sign ++ "inf"
    else if x.isZero then sign ++ "0"
    else sign ++ x.shortest.toText

end Double

end TypeSchema
