/-!
# Doubles as exact numbers

A finite double is an integer times a power of two. This module opens a `Float` into that form and
closes it again, and builds on it the two operations that have to be exact: the remainder of a
division and the cut of a number to an integer range.
-/

namespace ClassScript.Number

/-- A finite double, as the number `± mantissa · 2 ^ exponent`. -/
structure Binary64 where
  negative : Bool
  mantissa : Nat
  exponent : Int
deriving Repr, DecidableEq

namespace Binary64

/-- The bit that a normal double has before the fraction that it stores. -/
def leadingBit : Nat := 1 <<< 52

/-- The exact form of a double; `none` for the infinities and for a number that is not one. -/
def ofFloat (x : Float) : Option Binary64 :=
  let bits : Nat := x.toBits.toNat
  let negative := bits >>> 63 == 1
  let biased : Nat := (bits >>> 52) % 2048
  let fraction : Nat := bits % leadingBit
  if biased = 2047 then none
  else if biased = 0 then some ⟨negative, fraction, -1074⟩
  else some ⟨negative, fraction + leadingBit, (biased : Int) - 1075⟩

/-- `m · 2 ^ e`, cut to an integer when `e` is negative. -/
def shift (m : Nat) (e : Int) : Nat :=
  match e with
  | .ofNat k => m <<< k
  | .negSucc k => m >>> (k + 1)

/-- The double of an exact form. The form has to be one that a double can hold. -/
def toFloat (b : Binary64) : Float :=
  let sign := if b.negative then 1 <<< 63 else 0
  let magnitude :=
    if b.mantissa = 0 then 0
    else
      let top : Int := b.mantissa.log2 + b.exponent
      if top < -1022 then shift b.mantissa (b.exponent + 1074)
      else (top + 1023).toNat <<< 52 + shift b.mantissa (52 - (b.mantissa.log2 : Int)) % leadingBit
  Float.ofBits (UInt64.ofNat (sign + magnitude))

/-- The integer part, toward zero. -/
def truncate (b : Binary64) : Int :=
  let n : Int := shift b.mantissa b.exponent
  if b.negative then -n else n

end Binary64

/-- Negative zero and the negative numbers; the sign of a number that is not one is no matter. -/
def isNegative (x : Float) : Bool :=
  x.toBits.toNat >>> 63 == 1

/-- The remainder of a division that is cut toward zero: it has the sign of the dividend, and it is
exact. -/
def remainder (x y : Float) : Float :=
  match Binary64.ofFloat x, Binary64.ofFloat y with
  | some a, some b =>
    if b.mantissa = 0 then 0.0 / 0.0
    else
      let e := min a.exponent b.exponent
      let dividend := Binary64.shift a.mantissa (a.exponent - e)
      let divisor := Binary64.shift b.mantissa (b.exponent - e)
      Binary64.toFloat ⟨a.negative, dividend % divisor, e⟩
  | some _, none => if y.isNaN then y else x
  | none, _ => 0.0 / 0.0

/-- The number without its fraction; the sign of a zero stays. -/
def truncate (x : Float) : Float :=
  if x < 0.0 then x.ceil else x.floor

/-- The integer part of a number, brought into the range from `lo` to `hi`; `0` for a number that is
not one. -/
def clamp (lo hi : Int) (x : Float) : Int :=
  match Binary64.ofFloat x with
  | some b => max lo (min hi b.truncate)
  | none => if x.isNaN then 0 else if isNegative x then lo else hi

/-- The signed 32-bit word that bitwise operators work on. -/
def toWord (x : Float) : Int32 :=
  Int32.ofInt (clamp Int32.minValue.toInt Int32.maxValue.toInt x)

def ofWord (w : Int32) : Float :=
  Float.ofInt w.toInt

end ClassScript.Number
