import AudioFraming.Proofs.Sizing.Warmup
import Mathlib.Algebra.Order.Floor.Div

/-!
# What is left over

Whole frames cover what is asked for after a given number of quanta exactly if the remainder
is no longer than those quanta (`covers_iff`). The longest remainder there is, a frame without
the common divisor of the two sizes, comes up again and again (`exists_residue_eq`): the
warm-up covers it, and nothing shorter does (`mul_lt_lag`).

The common divisor is the one that Euclid's algorithm finds on 64-bit words.
-/

namespace AudioFraming

namespace Sizing

/-- Euclid's algorithm. -/
def euclid (a b : UInt64) : UInt64 := if b = 0 then a else euclid b (a % b)
termination_by b.toNat
decreasing_by
  rename_i hb
  rw [UInt64.toNat_mod]
  exact Nat.mod_lt _ (toNat_pos hb)

theorem toNat_euclid (a b : UInt64) : (euclid a b).toNat = Nat.gcd a.toNat b.toNat := by
  fun_induction euclid a b with
  | case1 a => simp
  | case2 a b hb ih =>
    rw [ih, UInt64.toNat_mod, Nat.gcd_comm, ← Nat.gcd_rec, Nat.gcd_comm]

theorem covers_iff {frame quantum n k : Nat} (h : n ≤ k) :
    (k - n) * quantum ≤ k * quantum / frame * frame ↔ k * quantum % frame ≤ n * quantum := by
  have hdiv := Nat.div_add_mod' (k * quantum) frame
  have hle := Nat.mul_le_mul_right quantum h
  rw [Nat.sub_mul]
  omega

/-- The longest remainder comes up again and again. -/
theorem exists_residue_eq {frame : Nat} (quantum n : Nat) (hpos : 0 < frame) :
    ∃ k, n < k ∧ k * quantum % frame = frame - Nat.gcd frame quantum := by
  obtain ⟨m, hm⟩ : ∃ m, m * quantum ≡ Nat.gcd frame quantum [MOD frame] := by
    rcases (Nat.gcd_le_left quantum hpos).lt_or_eq with hlt | heq
    · rw [Nat.gcd_comm] at hlt ⊢
      obtain ⟨m, -, hm⟩ := Nat.exists_mul_mod_eq_gcd hlt
      refine ⟨m, ?_⟩
      rw [Nat.ModEq, Nat.mul_comm, hm, Nat.mod_eq_of_lt hlt]
    · exact ⟨0, by simp [Nat.ModEq, heq]⟩
  -- As many quanta as `m` frames lack of `m`, and some whole frames of quanta to get past `n`.
  refine ⟨m * (frame - 1) + frame * (n + 1), ?_, ?_⟩
  · have hle := Nat.le_mul_of_pos_left (n + 1) hpos
    omega
  · generalize hk : m * (frame - 1) + frame * (n + 1) = k
    have hsum : k * quantum + m * quantum = frame * ((m + n + 1) * quantum) := by
      obtain ⟨frame, rfl⟩ := Nat.exists_eq_succ_of_ne_zero hpos.ne'
      rw [← hk]
      simp only [Nat.succ_eq_add_one, Nat.add_sub_cancel]
      ring
    have hdvd : frame ∣ k * quantum % frame + Nat.gcd frame quantum := by
      rw [← Nat.modEq_zero_iff_dvd]
      calc k * quantum % frame + Nat.gcd frame quantum
          ≡ k * quantum + m * quantum [MOD frame] := (Nat.mod_modEq _ _).add hm.symm
        _ ≡ 0 [MOD frame] := by simp [hsum, Nat.ModEq]
    have hlt := Nat.mod_lt (k * quantum) hpos
    have hgcd := Nat.gcd_pos_of_pos_left quantum hpos
    have hle := Nat.gcd_le_left quantum hpos
    have hone := Nat.eq_of_dvd_of_lt_two_mul (by omega) hdvd (by omega)
    omega

section positive

variable {s : Sizing}

variable (hframe : 0 < s.frame.toNat) (hquantum : 0 < s.quantum.toNat)
include hframe hquantum

theorem toNat_warmupQuanta :
    s.warmupQuanta.toNat = s.lag.toNat ⌈/⌉ s.quantum.toNat := by
  obtain ⟨hle, hlt⟩ := warmup_bounds hframe hquantum
  rw [Nat.ceilDiv_eq_add_pred_div]
  refine (Nat.div_eq_of_lt_le ?_ ?_).symm
  · omega
  · rw [Nat.succ_mul]
    omega

/-- A shorter warm-up does not cover the lag. -/
theorem mul_lt_lag {n : Nat} (hn : n < s.warmupQuanta.toNat) :
    n * s.quantum.toNat < s.lag.toNat := by
  have hlt := (warmup_bounds hframe hquantum).2
  have hle := Nat.mul_le_mul_right s.quantum.toNat (Nat.succ_le_of_lt hn)
  rw [Nat.succ_mul] at hle
  omega

/-- From the end of the warm-up on, the whole frames cover what is asked for. -/
theorem warmup_covers {k : Nat} (hk : s.warmupQuanta.toNat ≤ k) :
    (k - s.warmupQuanta.toNat) * s.quantum.toNat ≤
      k * s.quantum.toNat / s.frame.toNat * s.frame.toNat := by
  rw [covers_iff hk]
  have hresidue := residue_le s.quantum.toNat k hframe
  have hlag := (warmup_bounds hframe hquantum).1
  rw [toNat_lag hframe] at hlag
  omega

/-- A shorter warm-up leaves something uncovered. -/
theorem exists_uncovered {n : Nat} (hn : n < s.warmupQuanta.toNat) :
    ∃ k, n < k ∧ k * s.quantum.toNat / s.frame.toNat * s.frame.toNat <
      (k - n) * s.quantum.toNat := by
  obtain ⟨k, hk, hresidue⟩ := exists_residue_eq s.quantum.toNat n hframe
  refine ⟨k, hk, ?_⟩
  have hlt := mul_lt_lag hframe hquantum hn
  rw [← Nat.not_le, covers_iff hk.le, hresidue, ← toNat_lag hframe]
  omega

end positive

end Sizing

end AudioFraming
