/-!
# Fixed-point decimals

Numbers with a fixed count of decimals. The number is taken exactly and rounded
to the nearest such decimal, of two to the one with an even last digit.
-/

namespace AudioFraming

namespace Decimal

/-- The quotient rounded to the nearest natural number, of two to the even one. -/
def roundDiv (n d : Nat) : Nat :=
  let q := n / d
  let r := n % d
  if 2 * r < d ∨ (2 * r = d ∧ q % 2 = 0) then q else q + 1

/-- The text of `n / 10 ^ places`. -/
def text (n places : Nat) : String :=
  let whole := toString (n / Nat.pow 10 places)
  let digits := Nat.toDigits 10 (n % Nat.pow 10 places)
  if places = 0 then whole
  else whole ++ "." ++ String.ofList (List.replicate (places - digits.length) '0' ++ digits)

/-- A double as numerator and denominator of its magnitude, by its bits; `none` beyond the
numbers. -/
def fraction? (bits : UInt64) : Option (Nat × Nat) :=
  let exponent := ((bits >>> 52) &&& 0x7ff).toNat
  let mantissa := (bits &&& 0xfffffffffffff).toNat
  if exponent = 0x7ff then none
  else
    let m := if exponent = 0 then mantissa else mantissa + 0x10000000000000
    let e := max exponent 1
    if 1075 ≤ e then some (m * Nat.pow 2 (e - 1075), 1)
    else some (m, Nat.pow 2 (1075 - e))

/-- A double with a fixed count of decimals. -/
def fixed (places : Nat) (x : Float) : String :=
  let negative := x.toBits >>> 63 == 1
  match fraction? x.toBits with
  | some (n, d) => (if negative then "-" else "") ++ text (roundDiv (n * Nat.pow 10 places) d) places
  | none => if x.isNaN then "NaN" else if negative then "-inf" else "inf"

/-- Whatever the quotient, the rounded one is within half a unit of it. -/
theorem roundDiv_near (n d : Nat) (h : 0 < d) :
    2 * n ≤ 2 * d * roundDiv n d + d ∧ 2 * d * roundDiv n d ≤ 2 * n + d := by
  have e := Nat.div_add_mod n d
  have l := Nat.mod_lt n h
  unfold roundDiv
  dsimp only
  generalize n / d = q at *
  generalize n % d = r at *
  have s : 2 * d * q = 2 * (d * q) := Nat.mul_assoc ..
  have t : 2 * d * (q + 1) = 2 * (d * q) + 2 * d := by rw [Nat.mul_add, s]; omega
  split
  · omega
  · omega

end Decimal

end AudioFraming
