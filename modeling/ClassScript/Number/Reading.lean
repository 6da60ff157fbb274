import ClassScript.Number.Binary64

/-!
# Reading numbers

The grammar of a number text, and its value: the nearest double, a tie going to the even neighbour.

    number   ::= sign? (decimal exponent? | "inf" | "infinity" | "nan")
    decimal  ::= digit+ ("." digit*)? | "." digit+
    exponent ::= ("e" | "E") sign? digit+
    sign     ::= "+" | "-"

Letter case does not matter in the three words.
-/

namespace ClassScript.Number

def ofDigits (digits : List Char) : Nat :=
  digits.foldl (fun n c => 10 * n + (c.toNat - '0'.toNat)) 0

/-- An optional sign: whether it is a minus, and what follows. -/
def readSign : List Char → Bool × List Char
  | '-' :: rest => (true, rest)
  | '+' :: rest => (false, rest)
  | rest => (false, rest)

/-- The exponent part up to the end of the text; no exponent part counts as zero. -/
def readExponent : List Char → Option Int
  | [] => some 0
  | c :: rest =>
    if c = 'e' ∨ c = 'E' then
      let (negative, digits) := readSign rest
      if digits.isEmpty || !digits.all Char.isDigit then none
      else some (if negative then -(ofDigits digits : Int) else ofDigits digits)
    else none

/-- The double nearest to `coefficient · 10 ^ exponent`. Outside of the range of doubles the answer
is known from the number of digits alone. -/
def nearest (coefficient : Nat) (exponent : Int) : Float :=
  let magnitude := exponent + (Nat.toDigits 10 coefficient).length
  if coefficient = 0 ∨ magnitude < -400 then 0.0
  else if magnitude > 400 then 1.0 / 0.0
  else Float.ofScientific coefficient (exponent < 0) exponent.natAbs

/-- The value of an unsigned decimal with an optional exponent. -/
def readDecimal (text : List Char) : Option Float :=
  let whole := text.takeWhile Char.isDigit
  let rest := text.dropWhile Char.isDigit
  let (fraction, rest) := match rest with
    | '.' :: tail => (tail.takeWhile Char.isDigit, tail.dropWhile Char.isDigit)
    | _ => ([], rest)
  if whole.isEmpty && fraction.isEmpty then none
  else (readExponent rest).map fun e => nearest (ofDigits (whole ++ fraction)) (e - fraction.length)

def read? (text : String) : Option Float :=
  let (negative, magnitude) := readSign text.toList
  let word := String.ofList (magnitude.map Char.toLower)
  let value :=
    if word = "inf" ∨ word = "infinity" then some (1.0 / 0.0)
    else if word = "nan" then some (0.0 / 0.0)
    else readDecimal magnitude
  value.map fun x => if negative then -x else x

end ClassScript.Number
