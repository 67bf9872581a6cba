import AudioFraming.Engine.Slots

/-!
# The identity engine

Copies each frame unchanged and finds speech in every frame that holds a non-zero
sample. It is the engine of choice when the path around the engine is what counts.
-/

namespace AudioFraming

structure IdentityEngine where
  frameSize : UInt64
  arena : Arena
  instances : Slots Unit := {}

namespace IdentityEngine

/-- An engine with memory for `samples` samples. -/
def ofMemory (frameSize : UInt64) (samples : Nat) : IdentityEngine :=
  { frameSize := frameSize, arena := Arena.ofCapacity samples }

/-- An engine with the usual memory. -/
def ofFrameSize (frameSize : UInt64) : IdentityEngine :=
  ofMemory frameSize (frameSize.toNat * arenaFrames)

/-- Full certainty of speech unless every sample is zero. -/
def voiceActivity (frame : List Sample) : Sample :=
  if frame.all Sample.isZero then .zero else .one

def processFrame (e : IdentityEngine) (h : Handle) (output input : UInt32) :
    Except EngineError Sample × IdentityEngine :=
  match e.instances.get? h with
  | none => (.error (.invalidHandle h.raw), e)
  | some () =>
    match e.arena.pair output input e.frameSize.toNat with
    | .error fault => (.error fault, e)
    | .ok runs =>
      let frame := runs.inputBlock e.arena
      (.ok (voiceActivity frame), { e with arena := runs.store e.arena frame })

instance : Engine IdentityEngine where
  name _ := "identity"
  frameSize e := e.frameSize
  arena e := e.arena
  withArena e a := { e with arena := a }
  arena_withArena _ _ := rfl
  withArena_arena _ := rfl
  withArena_withArena _ _ _ := rfl
  create e :=
    let (h, instances) := e.instances.insert ()
    (.ok h, { e with instances := instances })
  destroy e h := { e with instances := e.instances.erase h }
  processFrame := processFrame

end IdentityEngine

end AudioFraming
