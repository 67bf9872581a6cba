/-!
# Samples

A sample is an IEEE 754 binary32 number, kept as its bit pattern. Moving samples
through rings, arenas and blocks never looks inside a pattern, so NaN payloads
and the sign of zero survive. A block of samples is a list.
-/

namespace AudioFraming

/-- One audio sample, by bit pattern. -/
structure Sample where
  bits : UInt32
deriving DecidableEq, Inhabited

namespace Sample

/-- Positive zero, the sample of silence. -/
def zero : Sample := ⟨0⟩

def one : Sample := ⟨0x3f800000⟩

/-- Flips the sign bit, also of zeros and NaNs. -/
def neg (s : Sample) : Sample := ⟨s.bits ^^^ 0x80000000⟩

/-- Whether the number is zero, of either sign. A NaN is not zero. -/
def isZero (s : Sample) : Bool := s.bits == 0 || s.bits == 0x80000000

def toFloat32 (s : Sample) : Float32 := Float32.ofBits s.bits

def ofFloat32 (x : Float32) : Sample := ⟨x.toBits⟩

/-- `n` samples of silence. -/
def silence (n : Nat) : List Sample := List.replicate n zero

@[simp] theorem length_silence (n : Nat) : (silence n).length = n := by simp [silence]

@[simp] theorem isZero_zero : isZero zero = true := rfl

end Sample

end AudioFraming
