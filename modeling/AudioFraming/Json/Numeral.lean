/-!
# Numerals

A JSON numeral is kept as it is spelled. Its double decides only whether the
numeral is acceptable: readers refuse a numeral whose double is infinite.

The double is computed in two steps. First the digits are gathered into a
significand of at most 64 bits and a power of ten; digits that no longer fit are
dropped, those of the whole part counting towards the power. Then the significand
and the power of ten, each rounded to a double, are multiplied.
-/

namespace AudioFraming

namespace Json

inductive ExponentSign where
  | absent
  | plus
  | minus
deriving DecidableEq, Inhabited

structure Exponent where
  capital : Bool
  sign : ExponentSign
  digits : List Char
deriving DecidableEq, Inhabited

structure Numeral where
  negative : Bool := false
  whole : List Char
  /-- The digits after the point; empty if there is no point. -/
  fraction : List Char := []
  exponent : Option Exponent := none
deriving DecidableEq, Inhabited

def digitValue (c : Char) : Nat := c.toNat - '0'.toNat

/-- The nearest natural number with a significand of 53 bits, of two the even one. -/
def roundToDouble (n : Nat) : Nat :=
  let unit := Nat.pow 2 (n.log2 + 1 - 53)
  let q := n / unit
  let r := n % unit
  if 2 * r < unit ∨ (2 * r = unit ∧ q % 2 = 0) ∨ r = 0 then q * unit else (q + 1) * unit

/-- Appends digits to a significand while it fits 64 bits; answers the digits left over. -/
def gather (significand : Nat) : List Char → Nat × List Char
  | [] => (significand, [])
  | c :: rest =>
    let next := significand * 10 + digitValue c
    if next < Nat.pow 2 64 then gather next rest else (significand, c :: rest)

namespace Exponent

def text (e : Exponent) : List Char :=
  (if e.capital then 'E' else 'e') ::
    (match e.sign with
    | .absent => e.digits
    | .plus => '+' :: e.digits
    | .minus => '-' :: e.digits)

def value (e : Exponent) : Int :=
  let magnitude := e.digits.foldl (fun n c => n * 10 + digitValue c) 0
  if e.sign = .minus then -(Int.ofNat magnitude) else Int.ofNat magnitude

end Exponent

namespace Numeral

/-- The decimal spelling of a natural number. -/
def ofNat (n : Nat) : Numeral := { whole := Nat.toDigits 10 n }

def text (n : Numeral) : List Char :=
  (if n.negative then ['-'] else []) ++ n.whole ++
    (if n.fraction = [] then [] else '.' :: n.fraction) ++
    (n.exponent.elim [] Exponent.text)

/-- The significand and the power of ten that goes with it. -/
def scaled (n : Numeral) : Nat × Int :=
  let (whole, extra) := gather 0 n.whole
  let (significand, dropped) := gather whole n.fraction
  let places := n.fraction.length - dropped.length
  (significand, Int.ofNat extra.length - Int.ofNat places + n.exponent.elim 0 Exponent.value)

/-- Whether the double is a number. Beyond a power of 308 it never is, unless it is zero. -/
def isFinite (n : Numeral) : Bool :=
  let (significand, power) := n.scaled
  significand == 0 || power < 0 ||
    (power ≤ 308 &&
      roundToDouble (roundToDouble significand * roundToDouble (Nat.pow 10 power.toNat)) <
        Nat.pow 2 1024)

end Numeral

end Json

end AudioFraming
