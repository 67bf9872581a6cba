import Mathlib.Algebra.Order.Floor.Div
import Mathlib.Tactic

/-!
# Arithmetic that is checked

The operations on counts that go wrong for some operands: a difference that would be negative, a
sum or a product that 64 bits cannot hold, a division by zero. Each of them has no result there.
A computation that is written with them and has a result never goes wrong, and what it computes
is what the same operations compute on unbounded numbers.
-/

namespace AudioFraming

/-- The difference of two numbers, unless it is negative. -/
def sub? (a b : Nat) : Option Nat := if b ≤ a then some (a - b) else none

/-- The sum of two word counts, unless 64 bits cannot hold it. -/
def sum? (a b : Nat) : Option Nat := if a + b < UInt64.size then some (a + b) else none

/-- The product of two word counts, unless 64 bits cannot hold it. -/
def product? (a b : Nat) : Option Nat := if a * b < UInt64.size then some (a * b) else none

def quotient? (a b : Nat) : Option Nat := if b = 0 then none else some (a / b)

def remainder? (a b : Nat) : Option Nat := if b = 0 then none else some (a % b)

/-- The quotient rounded up: one more than the quotient if something remains. -/
def ceilQuotient? (a b : Nat) : Option Nat := do
  let quotient ← quotient? a b
  let remainder ← remainder? a b
  if remainder = 0 then return quotient else sum? quotient 1

/-- Euclid's algorithm. -/
def euclid? (a b : Nat) : Option Nat :=
  if b = 0 then some a
  else
    match _ : remainder? a b with
    | none => none
    | some r => euclid? b r
termination_by b
decreasing_by
  rename_i hb h
  rw [remainder?, if_neg hb] at h
  obtain rfl := Option.some.inj h
  exact Nat.mod_lt a (Nat.pos_of_ne_zero hb)

theorem sub?_eq_some {a b : Nat} (h : b ≤ a) : sub? a b = some (a - b) := if_pos h

theorem sum?_eq_some {a b : Nat} (h : a + b < UInt64.size) : sum? a b = some (a + b) := if_pos h

theorem product?_eq_some {a b : Nat} (h : a * b < UInt64.size) : product? a b = some (a * b) :=
  if_pos h

theorem ceilQuotient?_eq_some {a b : Nat} (ha : a < UInt64.size) (hb : 0 < b) :
    ceilQuotient? a b = some (a ⌈/⌉ b) := by
  have hne : b ≠ 0 := hb.ne'
  have hdiv := Nat.div_add_mod' a b
  have hlt := Nat.mod_lt a hb
  have hle := Nat.le_mul_of_pos_right (a / b) hb
  simp only [ceilQuotient?, quotient?, remainder?, if_neg hne, Option.bind_eq_bind,
    Option.bind_some]
  split_ifs with h0
  · rw [Nat.ceilDiv_eq_add_pred_div]
    refine congrArg some (Nat.div_eq_of_lt_le ?_ ?_).symm
    · omega
    · rw [Nat.succ_mul]
      omega
  · rw [sum?_eq_some (by omega), Nat.ceilDiv_eq_add_pred_div]
    refine congrArg some (Nat.div_eq_of_lt_le ?_ ?_).symm
    · rw [Nat.succ_mul]
      omega
    · rw [Nat.succ_mul, Nat.succ_mul]
      omega

/-- A divisor is zero only where the algorithm has ended. -/
theorem euclid?_eq_some (a b : Nat) : euclid? a b = some (Nat.gcd a b) := by
  fun_induction euclid? a b with
  | case1 a => simp
  | case2 a b hb h => simp [remainder?, hb] at h
  | case3 a b hb r h ih =>
    obtain rfl : a % b = r := by simpa [remainder?, hb] using h
    rw [ih, Nat.gcd_comm, ← Nat.gcd_rec, Nat.gcd_comm]

end AudioFraming
