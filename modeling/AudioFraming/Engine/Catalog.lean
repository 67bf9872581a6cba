import AudioFraming.Engine.Recorded
import AudioFraming.Engine.Scripted
import AudioFraming.Engine.Suppressor

/-!
# The catalog of engines

One type for the engines that can be chosen by name.
-/

namespace AudioFraming

inductive CatalogEngine where
  | identity (engine : IdentityEngine)
  | scripted (engine : Recorded ScriptedEngine)
  | suppressor (engine : SuppressorEngine Mute)

namespace CatalogEngine

instance : Engine CatalogEngine where
  name
    | identity e => Engine.name e
    | scripted e => Engine.name e
    | suppressor e => Engine.name e
  frameSize
    | identity e => Engine.frameSize e
    | scripted e => Engine.frameSize e
    | suppressor e => Engine.frameSize e
  arena
    | identity e => Engine.arena e
    | scripted e => Engine.arena e
    | suppressor e => Engine.arena e
  withArena
    | identity e, a => .identity (Engine.withArena e a)
    | scripted e, a => .scripted (Engine.withArena e a)
    | suppressor e, a => .suppressor (Engine.withArena e a)
  arena_withArena s a := by cases s <;> simp
  withArena_arena s := by cases s <;> simp
  withArena_withArena s a b := by cases s <;> simp
  create
    | identity e => (Engine.create e).map id .identity
    | scripted e => (Engine.create e).map id .scripted
    | suppressor e => (Engine.create e).map id .suppressor
  destroy
    | identity e, h => .identity (Engine.destroy e h)
    | scripted e, h => .scripted (Engine.destroy e h)
    | suppressor e, h => .suppressor (Engine.destroy e h)
  processFrame
    | identity e, h, output, input =>
      (Engine.processFrame e h output input).map id .identity
    | scripted e, h, output, input =>
      (Engine.processFrame e h output input).map id .scripted
    | suppressor e, h, output, input =>
      (Engine.processFrame e h output input).map id .suppressor

/-- Live instances, where the engine tells. -/
def liveInstances : CatalogEngine → Option Nat
  | identity e => some e.instances.count
  | scripted e => some e.inner.inner.instances.count
  | suppressor _ => none

/-- The calls since the journal was last taken, where one is kept. -/
def takeJournal : CatalogEngine → Option (List EngineCall) × CatalogEngine
  | scripted e => (some e.takeJournal.1, .scripted e.takeJournal.2)
  | e => (none, e)

end CatalogEngine

/-- The engine that is used unless another one is asked for. -/
def defaultEngine : SuppressorEngine Mute := .new

end AudioFraming
