import AudioFraming.Arena

/-!
# Engines

An engine is a state machine that denoises one frame at a time. Its frames lie in
an arena that it shares with its caller, who creates an instance, names frames by
byte offset, and destroys the instance when done. `Engine σ` says that states of
type `σ` are engines; the arena is a lens on the state.
-/

namespace AudioFraming

/-- Names an instance of an engine. -/
structure Handle where
  raw : UInt32
deriving DecidableEq, Inhabited

class Engine (σ : Type) where
  name : σ → String
  /-- Samples per frame that the engine asks for at this moment. -/
  frameSize : σ → UInt64
  arena : σ → Arena
  withArena : σ → Arena → σ
  arena_withArena : ∀ s a, arena (withArena s a) = a
  withArena_arena : ∀ s, withArena s (arena s) = s
  withArena_withArena : ∀ s a b, withArena (withArena s a) b = withArena s b
  /-- Makes an instance with fresh filter state. -/
  create : σ → Except EngineError Handle × σ
  /-- Ends an instance. Unknown handles are ignored. -/
  destroy : σ → Handle → σ
  /-- Denoises the frame at the input offset into the one at the output offset (in this order)
  and answers the probability that it holds speech. -/
  processFrame : σ → Handle → UInt32 → UInt32 → Except EngineError Sample × σ

namespace Engine

attribute [simp] arena_withArena withArena_arena withArena_withArena

end Engine

/-- How many frames of memory an engine brings along. A framer needs two. -/
def arenaFrames : Nat := 4

end AudioFraming
