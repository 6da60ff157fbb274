import ClassScript.Number.Binary64

/-!
# Numbers in decimal notation

The text of a number has the fewest digits that read back as the same double, the nearest of those,
and never an exponent. The digits are found by exact arithmetic on the interval of the reals that
round to the double; the layout is a separate matter.
-/

namespace ClassScript.Number

/-- The decimal `coefficient · 10 ^ exponent`. -/
structure Decimal where
  coefficient : Nat
  exponent : Int
deriving Repr, DecidableEq

/-- The reals that round to a positive double, in the unit `scale / denom`: all strictly between
`low` and `high`, and the two ends where `closed`. -/
structure Rounding where
  low : Nat
  value : Nat
  high : Nat
  closed : Bool
  scale : Nat
  denom : Nat

namespace Rounding

/-- The interval of the double `mantissa · 2 ^ exponent`. The lower neighbour of a power of two is
only half as far away as the upper one. -/
def ofBinary (mantissa : Nat) (exponent : Int) : Rounding where
  low :=
    if mantissa = Binary64.leadingBit ∧ exponent > -1074 then 4 * mantissa - 1
    else 4 * mantissa - 2
  value := 4 * mantissa
  high := 4 * mantissa + 2
  closed := mantissa % 2 = 0
  scale := Nat.pow 2 (exponent - 2).toNat
  denom := Nat.pow 2 (2 - exponent).toNat

/-- Whether the interval holds the number `n / unit`, given `n` in the unit of the interval. -/
def holds (r : Rounding) (n unit : Nat) : Bool :=
  let low := r.low * r.scale * unit
  let high := r.high * r.scale * unit
  if r.closed then low ≤ n && n ≤ high else low < n && n < high

/-- The decimal with the fewest digits in the interval, none of its digits above the place `point`.
The grid of `length` digits has the step `10 ^ (point - length)`. Of the two neighbours of the value
on a grid the nearer wins, and the upper one if they are equally near. -/
def search (r : Rounding) (point : Int) : (left : Nat) → (length : Nat) → Decimal
  | left, length =>
    let step : Int := point - length
    let unit := Nat.pow 10 (-step).toNat
    let grid := Nat.pow 10 step.toNat * r.denom
    let target := r.value * r.scale * unit
    let below := target / grid
    let nearest := if 2 * (target % grid) ≥ grid then below + 1 else below
    let lower := r.holds (below * grid) unit
    let upper := r.holds ((below + 1) * grid) unit
    match left with
    | 0 => ⟨nearest, step⟩
    | left + 1 =>
      if lower && upper then ⟨nearest, step⟩
      else if lower then ⟨below, step⟩
      else if upper then ⟨below + 1, step⟩
      else search r point left (length + 1)

/-- The least place at or above `guess` with the value below `10 ^ place`. -/
def place (r : Rounding) : (left : Nat) → (guess : Int) → Int
  | 0, guess => guess
  | left + 1, guess =>
    if r.value * r.scale * Nat.pow 10 (-guess).toNat < Nat.pow 10 guess.toNat * r.denom then guess
    else place r left (guess + 1)

end Rounding

/-- The shortest decimal of a positive finite double. Seventeen digits tell all doubles apart. -/
def shortest (mantissa : Nat) (exponent : Int) : Decimal :=
  let r := Rounding.ofBinary mantissa exponent
  -- the logarithm of 2 is a little more than 0.301; the guess is at most three places too low
  let guess := ((mantissa.log2 : Int) + exponent) * 301 / 1000 - 1
  r.search (r.place 4 guess) 16 1

/-- Positional notation, with neither exponent nor superfluous zeros. -/
def Decimal.text (d : Decimal) : String :=
  let all := Nat.toDigits 10 d.coefficient
  let trailing := (all.reverse.takeWhile (· == '0')).length
  let digits := all.take (all.length - trailing)
  let exponent := d.exponent + trailing
  if 0 ≤ exponent then
    String.ofList (digits ++ List.replicate exponent.toNat '0')
  else
    let places := (-exponent).toNat
    if places < digits.length then
      let whole := digits.length - places
      String.ofList (digits.take whole ++ '.' :: digits.drop whole)
    else
      String.ofList ('0' :: '.' :: List.replicate (places - digits.length) '0' ++ digits)

/-- The spelling of the numbers that have no digits. -/
structure Spelling where
  notNumber : String
  infinity : String
  /-- Whether negative zero shows its sign. -/
  signedZero : Bool

def Spelling.text (s : Spelling) (x : Float) : String :=
  let sign := if isNegative x then "-" else ""
  match Binary64.ofFloat x with
  | none => if x.isNaN then s.notNumber else sign ++ s.infinity
  | some b =>
    if b.mantissa = 0 then (if s.signedZero then sign ++ "0" else "0")
    else sign ++ (shortest b.mantissa b.exponent).text

/-- How programs see their numbers: both zeros are `0`. -/
def printed : Spelling := ⟨"NaN", "Infinity", false⟩

/-- How values are shown to a reader who wants to tell the zeros apart. -/
def shown : Spelling := ⟨"NaN", "Infinity", true⟩

/-- How messages quote a number. -/
def quoted : Spelling := ⟨"NaN", "inf", true⟩

end ClassScript.Number
