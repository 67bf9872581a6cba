import AudioFraming.Error

/-!
# Sizing

The host delivers audio in quanta, the engine works in frames. A `Sizing` fixes
both sizes and the slack of the rings between them. Sizes are 64-bit words; the
capacity computations saturate at the largest word.

The engine's output lags its input by up to `frame - gcd frame quantum` samples.
Holding output back by that lag, rounded up to whole quanta, is the warm-up:
after it each quantum of output is already waiting.
-/

namespace AudioFraming

/-- Sizes of a framer, all in samples except the jitter, which counts frames. -/
structure Sizing where
  /-- Samples per second. Nothing is resampled. -/
  sampleRate : UInt32 := 48000
  /-- Samples per host callback. -/
  quantum : UInt64 := 128
  /-- Samples per engine frame. -/
  frame : UInt64 := 480
  /-- Ring capacity beyond one frame, in frames. -/
  jitter : UInt64 := 3
deriving DecidableEq, Inhabited

namespace Sizing

/-- The largest jitter that `check` accepts. -/
def maxJitter : UInt64 := 32

/-- The largest size a word holds. -/
def maxSize : Nat := 0xffffffffffffffff

/-- Sum, held at the largest word. -/
def saturatingAdd (a b : UInt64) : UInt64 := UInt64.ofNat (min (a.toNat + b.toNat) maxSize)

/-- Product, held at the largest word. -/
def saturatingMul (a b : UInt64) : UInt64 := UInt64.ofNat (min (a.toNat * b.toNat) maxSize)

/-- Samples in each of the two rings. -/
def ringCapacity (s : Sizing) : UInt64 :=
  saturatingMul s.frame (saturatingAdd s.jitter 1)

/-- How far the engine's output can lag its input, in samples. -/
def lag (s : Sizing) : UInt64 :=
  s.frame - UInt64.ofNat (Nat.gcd s.frame.toNat s.quantum.toNat)

/-- Callbacks of silence before output begins; none if a size is zero. -/
def warmupQuanta (s : Sizing) : UInt64 :=
  if s.frame = 0 ∨ s.quantum = 0 then 0
  else if s.lag % s.quantum = 0 then s.lag / s.quantum
  else s.lag / s.quantum + 1

/-- The fixed delay from input to output. A word holds it if `check` accepts the sizes and the rings
have less than `maxSize` samples. -/
def latency (s : Sizing) : UInt64 := s.warmupQuanta * s.quantum

/-- The least ring capacity that works: the input ring has to hold a partial frame and one
more quantum, the output ring the warm-up backlog and one more quantum. -/
def requiredCapacity (s : Sizing) : UInt64 :=
  max (saturatingAdd s.frame s.quantum) (saturatingMul (s.warmupQuanta + 1) s.quantum)

/-- The first reason, in a fixed order, why the sizes do not fit each other or an engine
whose frames have `engineFrame` samples. -/
def check (s : Sizing) (engineFrame : UInt64) : Except SetupError Unit :=
  if s.sampleRate = 0 then .error (.zeroSize "sample rate")
  else if s.quantum = 0 then .error (.zeroSize "quantum size")
  else if s.frame = 0 then .error (.zeroSize "frame size")
  else if s.frame ≠ engineFrame then
    .error (.frameSizeMismatch s.frame.toNat engineFrame.toNat)
  else if maxJitter < s.jitter then
    .error (.jitterTooLarge s.jitter.toNat maxJitter.toNat)
  else if s.ringCapacity < s.requiredCapacity then
    .error (.capacityTooSmall s.ringCapacity.toNat s.requiredCapacity.toNat)
  else .ok ()

theorem toNat_saturatingAdd (a b : UInt64) :
    (saturatingAdd a b).toNat = min (a.toNat + b.toNat) maxSize := by
  have := a.toNat_lt
  simp only [saturatingAdd, maxSize, UInt64.toNat_ofNat']
  omega

theorem toNat_saturatingMul (a b : UInt64) :
    (saturatingMul a b).toNat = min (a.toNat * b.toNat) maxSize := by
  simp only [saturatingMul, maxSize, UInt64.toNat_ofNat']
  omega

end Sizing

end AudioFraming
