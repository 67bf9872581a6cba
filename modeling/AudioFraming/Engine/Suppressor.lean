import AudioFraming.Engine.Slots

/-!
# The noise suppression engine

Runs a denoiser on frames of 480 samples, ten milliseconds at 48 kHz. The
denoiser is a parameter: it works on the range of 16-bit integers, so frames are
scaled up before it and down after it, and it carries state from frame to frame,
one copy for each instance.
-/

namespace AudioFraming

/-- A denoiser with its filter state `δ`. -/
class Denoiser (δ : Type) where
  /-- The state before any frame. -/
  fresh : δ
  /-- Denoises one frame in the 16-bit range; answers the frame and how likely it is speech. -/
  denoise : δ → List Sample → (List Sample × Sample) × δ

/-- A denoiser that lets nothing through and never hears speech. -/
structure Mute where
deriving DecidableEq, Inhabited

instance : Denoiser Mute where
  fresh := {}
  denoise state frame := ((Sample.silence frame.length, .zero), state)

structure SuppressorEngine (δ : Type) where
  arena : Arena
  instances : Slots δ := {}

namespace SuppressorEngine

variable {δ : Type}

/-- Samples per frame. -/
def frameSize : UInt64 := 480

/-- What full scale becomes for the denoiser. -/
def pcmScale : Float32 := 32767

def toPcm (s : Sample) : Sample := .ofFloat32 (s.toFloat32 * pcmScale)

def ofPcm (s : Sample) : Sample := .ofFloat32 (s.toFloat32 / pcmScale)

/-- An engine with the usual memory. -/
def new : SuppressorEngine δ := { arena := Arena.ofCapacity (frameSize.toNat * arenaFrames) }

variable [Denoiser δ]

def processFrame (e : SuppressorEngine δ) (h : Handle) (output input : UInt32) :
    Except EngineError Sample × SuppressorEngine δ :=
  match e.instances.get? h with
  | none => (.error (.invalidHandle h.raw), e)
  | some state =>
    match e.arena.pair output input frameSize.toNat with
    | .error fault => (.error fault, e)
    | .ok runs =>
      let ((frame, vad), state) := Denoiser.denoise state ((runs.inputBlock e.arena).map toPcm)
      (.ok vad,
        { arena := runs.store e.arena (frame.map ofPcm), instances := e.instances.set h state })

instance : Engine (SuppressorEngine δ) where
  name _ := "rnnoise"
  frameSize _ := frameSize
  arena e := e.arena
  withArena e a := { e with arena := a }
  arena_withArena _ _ := rfl
  withArena_arena _ := rfl
  withArena_withArena _ _ _ := rfl
  create e :=
    let (h, instances) := e.instances.insert Denoiser.fresh
    (.ok h, { e with instances := instances })
  destroy e h := { e with instances := e.instances.erase h }
  processFrame := processFrame

end SuppressorEngine

end AudioFraming
