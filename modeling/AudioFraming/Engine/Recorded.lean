import AudioFraming.Engine.Basic

/-!
# Recorded engines

Keeps a journal of the calls that an engine receives, and changes nothing else.
-/

namespace AudioFraming

/-- A call that an engine received. -/
inductive EngineCall where
  | create
  | destroy (handle : Handle)
  | process (handle : Handle) (output input : UInt32)
deriving DecidableEq, Inhabited

/-- An engine and the calls it received, latest first. -/
structure Recorded (σ : Type) where
  inner : σ
  journal : List EngineCall := []

namespace Recorded

variable {σ : Type} [Engine σ]

instance : Engine (Recorded σ) where
  name e := Engine.name e.inner
  frameSize e := Engine.frameSize e.inner
  arena e := Engine.arena e.inner
  withArena e a := { e with inner := Engine.withArena e.inner a }
  arena_withArena _ _ := by simp
  withArena_arena _ := by simp
  withArena_withArena _ _ _ := by simp
  create e :=
    let (result, inner) := Engine.create e.inner
    (result, ⟨inner, .create :: e.journal⟩)
  destroy e h := ⟨Engine.destroy e.inner h, .destroy h :: e.journal⟩
  processFrame e h output input :=
    let (result, inner) := Engine.processFrame e.inner h output input
    (result, ⟨inner, .process h output input :: e.journal⟩)

/-- The calls since the journal was last taken, oldest first, and the engine with an empty
journal. -/
def takeJournal (e : Recorded σ) : List EngineCall × Recorded σ :=
  (e.journal.reverse, ⟨e.inner, []⟩)

end Recorded

end AudioFraming
