import AudioFraming.Sizing
import Mathlib.Tactic

/-!
# Why the warm-up is enough

After some quanta the engine has taken all whole frames, and a remainder is left over.
It is a multiple of the common divisor of the two sizes and less than a frame, so it
never exceeds the lag (`residue_le_lag`), and the warm-up covers the lag
(`lag_le_warmup`).

`Fits` is what `check` makes sure of. A frame of at most `2 ^ 30` samples, no larger
than an arena that 32 bits can address, keeps all sizes away from the largest word.
-/

namespace AudioFraming

namespace Sizing

/-- The sizes are not zero and fit each other and an engine. -/
structure Fits (s : Sizing) (engineFrame : UInt64) : Prop where
  quantum_pos : 0 < s.quantum.toNat
  frame_pos : 0 < s.frame.toNat
  frame_eq : s.frame = engineFrame
  jitter_le : s.jitter.toNat ≤ maxJitter.toNat
  required_le : s.requiredCapacity.toNat ≤ s.ringCapacity.toNat

theorem toNat_pos {a : UInt64} (h : a ≠ 0) : 0 < a.toNat := by
  apply Nat.pos_of_ne_zero
  intro h0
  exact h (UInt64.toNat_inj.mp h0)

theorem fits_of_check {s : Sizing} {engineFrame : UInt64} (h : s.check engineFrame = .ok ()) :
    s.Fits engineFrame := by
  unfold check at h
  split_ifs at h with hrate hquantum hframe hengine hjitter hcapacity
  exact ⟨toNat_pos hquantum, toNat_pos hframe, not_not.mp hengine,
    UInt64.le_iff_toNat_le.mp (UInt64.not_lt.mp hjitter),
    UInt64.le_iff_toNat_le.mp (UInt64.not_lt.mp hcapacity)⟩

/-- No remainder of whole quanta is longer than this. -/
theorem residue_le {frame : Nat} (quantum k : Nat) (hpos : 0 < frame) :
    k * quantum % frame ≤ frame - Nat.gcd frame quantum := by
  have hlt := Nat.mod_lt (k * quantum) hpos
  have hdvd : Nat.gcd frame quantum ∣ k * quantum % frame := by
    rw [Nat.dvd_mod_iff (Nat.gcd_dvd_left ..)]
    exact (Nat.gcd_dvd_right ..).mul_left k
  have hrest : Nat.gcd frame quantum ∣ frame - k * quantum % frame :=
    Nat.dvd_sub (Nat.gcd_dvd_left ..) hdvd
  have hle := Nat.le_of_dvd (Nat.sub_pos_of_lt hlt) hrest
  omega

theorem toNat_max (a b : UInt64) : (max a b).toNat = max a.toNat b.toNat := by
  change (if a ≤ b then b else a).toNat = _
  split_ifs with h
  · exact (Nat.max_eq_right (UInt64.le_iff_toNat_le.mp h)).symm
  · rw [UInt64.not_le, UInt64.lt_iff_toNat_lt] at h
    exact (Nat.max_eq_left h.le).symm

section positive

variable {s : Sizing}

theorem toNat_lag (hframe : 0 < s.frame.toNat) :
    s.lag.toNat = s.frame.toNat - Nat.gcd s.frame.toNat s.quantum.toNat := by
  have hlt := s.frame.toNat_lt
  have hle := Nat.gcd_le_left s.quantum.toNat hframe
  have hg : (UInt64.ofNat (Nat.gcd s.frame.toNat s.quantum.toNat)).toNat =
      Nat.gcd s.frame.toNat s.quantum.toNat := by
    rw [UInt64.toNat_ofNat', Nat.mod_eq_of_lt (by omega)]
  rw [lag, UInt64.toNat_sub_of_le, hg]
  rw [UInt64.le_iff_toNat_le, hg]
  exact hle

/-- The warm-up is the lag in quanta, rounded up. -/
theorem warmup_bounds (hframe : 0 < s.frame.toNat) (hquantum : 0 < s.quantum.toNat) :
    s.lag.toNat ≤ s.warmupQuanta.toNat * s.quantum.toNat ∧
      s.warmupQuanta.toNat * s.quantum.toNat < s.lag.toNat + s.quantum.toNat := by
  have hzero : ¬(s.frame = 0 ∨ s.quantum = 0) := by
    rintro (h0 | h0)
    · exact absurd (congrArg UInt64.toNat h0) (Nat.ne_of_gt hframe)
    · exact absurd (congrArg UInt64.toNat h0) (Nat.ne_of_gt hquantum)
  have hdiv := Nat.div_add_mod' s.lag.toNat s.quantum.toNat
  have hmod := Nat.mod_lt s.lag.toNat hquantum
  have hrem : s.lag % s.quantum = 0 ↔ s.lag.toNat % s.quantum.toNat = 0 := by
    rw [← UInt64.toNat_inj, UInt64.toNat_mod]
    rfl
  unfold warmupQuanta
  rw [if_neg hzero]
  split_ifs with h0
  · rw [hrem] at h0
    rw [UInt64.toNat_div]
    omega
  · rw [hrem] at h0
    have hle := Nat.le_mul_of_pos_right (s.lag.toNat / s.quantum.toNat) hquantum
    have hlt := s.lag.toNat_lt
    have hsucc : (s.lag / s.quantum + 1).toNat = s.lag.toNat / s.quantum.toNat + 1 := by
      rw [UInt64.toNat_add, UInt64.toNat_div]
      exact Nat.mod_eq_of_lt (by change _ + 1 < _; omega)
    rw [hsucc, Nat.succ_mul]
    omega

end positive

namespace Fits

variable {s : Sizing} {engineFrame : UInt64}

theorem toNat_lag (h : s.Fits engineFrame) :
    s.lag.toNat = s.frame.toNat - Nat.gcd s.frame.toNat s.quantum.toNat :=
  Sizing.toNat_lag h.frame_pos

/-- The remainder in the input ring never exceeds the lag. -/
theorem residue_le_lag (h : s.Fits engineFrame) (k : Nat) :
    k * s.quantum.toNat % s.frame.toNat ≤ s.lag.toNat := by
  rw [h.toNat_lag]
  exact residue_le _ k h.frame_pos

theorem warmup_bounds (h : s.Fits engineFrame) :
    s.lag.toNat ≤ s.warmupQuanta.toNat * s.quantum.toNat ∧
      s.warmupQuanta.toNat * s.quantum.toNat < s.lag.toNat + s.quantum.toNat :=
  Sizing.warmup_bounds h.frame_pos h.quantum_pos

theorem required_bounds (h : s.Fits engineFrame) :
    min (s.frame.toNat + s.quantum.toNat) maxSize ≤ s.ringCapacity.toNat ∧
      min ((s.warmupQuanta + 1).toNat * s.quantum.toNat) maxSize ≤ s.ringCapacity.toNat := by
  have hreq := h.required_le
  rw [requiredCapacity, toNat_max, toNat_saturatingAdd, toNat_saturatingMul] at hreq
  exact max_le_iff.mp hreq

theorem frame_le_ringCapacity (h : s.Fits engineFrame) :
    s.frame.toNat ≤ s.ringCapacity.toNat := by
  have hreq := h.required_bounds.1
  have hlt := s.frame.toNat_lt
  unfold maxSize at hreq
  omega

section addressable

variable (h : s.Fits engineFrame) (hframe : s.frame.toNat ≤ 2 ^ 30)
include h hframe

theorem toNat_ringCapacity : s.ringCapacity.toNat = s.frame.toNat * (s.jitter.toNat + 1) := by
  have hjitter : s.jitter.toNat ≤ 32 := h.jitter_le
  have hsucc : (saturatingAdd s.jitter 1).toNat = s.jitter.toNat + 1 := by
    rw [toNat_saturatingAdd]
    change min (_ + 1) maxSize = _
    unfold maxSize
    omega
  have hle : s.frame.toNat * (s.jitter.toNat + 1) ≤ 2 ^ 30 * 33 :=
    Nat.mul_le_mul hframe (by omega)
  rw [ringCapacity, toNat_saturatingMul, hsucc]
  unfold maxSize
  omega

theorem ringCapacity_lt : s.ringCapacity.toNat < 2 ^ 36 := by
  have hjitter : s.jitter.toNat ≤ 32 := h.jitter_le
  have hle : s.frame.toNat * (s.jitter.toNat + 1) ≤ 2 ^ 30 * 33 :=
    Nat.mul_le_mul hframe (by omega)
  rw [h.toNat_ringCapacity hframe]
  omega

theorem warmup_lt : s.warmupQuanta.toNat * s.quantum.toNat < 2 ^ 37 := by
  have hlt := h.ringCapacity_lt hframe
  have hreq := h.required_bounds.1
  have hw := h.warmup_bounds.2
  have hlag : s.lag.toNat ≤ s.frame.toNat := by
    rw [h.toNat_lag]
    exact Nat.sub_le ..
  unfold maxSize at hreq
  omega

theorem toNat_latency : s.latency.toNat = s.warmupQuanta.toNat * s.quantum.toNat := by
  have hlt := h.warmup_lt hframe
  rw [latency, UInt64.toNat_mul, Nat.mod_eq_of_lt (by omega)]

/-- Each ring has room for the warm-up and one more quantum. -/
theorem backlog_le_ringCapacity :
    (s.warmupQuanta.toNat + 1) * s.quantum.toNat ≤ s.ringCapacity.toNat := by
  have hlt := h.warmup_lt hframe
  have hcap := h.ringCapacity_lt hframe
  have hreq := h.required_bounds.2
  have hle := Nat.le_mul_of_pos_right s.warmupQuanta.toNat h.quantum_pos
  have hsucc : (s.warmupQuanta + 1).toNat = s.warmupQuanta.toNat + 1 := by
    rw [UInt64.toNat_add]
    exact Nat.mod_eq_of_lt (by change _ + 1 < _; omega)
  rw [hsucc] at hreq
  unfold maxSize at hreq
  omega

end addressable

end Fits

end Sizing

end AudioFraming
