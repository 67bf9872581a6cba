import AudioFraming.Engine.Recorded
import AudioFraming.Engine.Scripted
import AudioFraming.Proofs.Arena.Lending
import AudioFraming.Proofs.Engine.Instances

/-!
# Doubles of the identity engine

A double works on the arena and the instances of an identity engine, its core, and
may fail where that one would not: when an instance is created, and on any frame. A
failed creation leaves the core alone. A frame, whether it fails or not, changes
nothing but words of its output run, so a double may also alter what it hands out.

The identity engine is its own double. A scripted engine is one as long as its script
does not change the frame size, and a journal makes no difference.
-/

namespace AudioFraming

namespace IdentityEngine

/-- Only words of one frame from word `start` on have changed. -/
structure ChangesWithin (e : IdentityEngine) (start : Nat) (e' : IdentityEngine) : Prop where
  frameSize_eq : e'.frameSize = e.frameSize
  instances_eq : e'.instances = e.instances
  arena : e.arena.ChangesWithin start e.frameSize.toNat e'.arena

theorem ChangesWithin.refl (e : IdentityEngine) (start : Nat) : e.ChangesWithin start e :=
  ⟨rfl, rfl, .refl ..⟩

theorem ChangesWithin.trans {e e' e'' : IdentityEngine} {start : Nat}
    (h : e.ChangesWithin start e') (h' : e'.ChangesWithin start e'') :
    e.ChangesWithin start e'' where
  frameSize_eq := h'.frameSize_eq.trans h.frameSize_eq
  instances_eq := h'.instances_eq.trans h.instances_eq
  arena := h.arena.trans (h.frameSize_eq ▸ h'.arena)

theorem changesWithin_processFrame (e : IdentityEngine) (h : Handle) (output input : UInt32) :
    e.ChangesWithin (output / Span.sampleBytes).toNat (e.processFrame h output input).2 := by
  unfold processFrame
  split
  · exact .refl ..
  · split
    · exact .refl ..
    · rename_i runs hr
      obtain ⟨hout, -, hlen, -⟩ := Arena.pair_eq_ok hr
      obtain ⟨hstart, -⟩ := Arena.locate_eq_ok hout
      refine ⟨rfl, rfl, ?_⟩
      rw [← hstart, ← hlen]
      exact e.arena.changesWithin_write runs.output runs.length (runs.inputBlock e.arena)

end IdentityEngine

/-- An engine around an identity engine. -/
class IdentityDouble (σ : Type) [Engine σ] where
  core : σ → IdentityEngine
  /-- The engine asks for the frame size of its core, now and later. -/
  Steady : σ → Prop
  frameSize_core : ∀ s, Steady s → Engine.frameSize s = (core s).frameSize
  arena_core : ∀ s, Engine.arena s = (core s).arena
  core_withArena : ∀ s a, core (Engine.withArena s a) = { core s with arena := a }
  steady_withArena : ∀ s a, Steady s → Steady (Engine.withArena s a)
  core_create : ∀ s,
    Engine.create (core s) = ((Engine.create s).1, core (Engine.create s).2) ∨
      ∃ e, (Engine.create s).1 = .error e ∧ core (Engine.create s).2 = core s
  steady_create : ∀ s, Steady s → Steady (Engine.create s).2
  core_destroy : ∀ s h, core (Engine.destroy s h) = Engine.destroy (core s) h
  steady_destroy : ∀ s h, Steady s → Steady (Engine.destroy s h)
  core_processFrame : ∀ s h output input,
    (core s).ChangesWithin (output / Span.sampleBytes).toNat
      (core (Engine.processFrame s h output input).2)
  steady_processFrame : ∀ s h output input,
    Steady s → Steady (Engine.processFrame s h output input).2

instance : IdentityDouble IdentityEngine where
  core e := e
  Steady _ := True
  frameSize_core _ _ := rfl
  arena_core _ := rfl
  core_withArena _ _ := rfl
  steady_withArena _ _ _ := trivial
  core_create _ := Or.inl rfl
  steady_create _ _ := trivial
  core_destroy _ _ := rfl
  steady_destroy _ _ _ := trivial
  core_processFrame e h output input := e.changesWithin_processFrame h output input
  steady_processFrame _ _ _ _ _ := trivial

namespace ScriptedEngine

theorem changesWithin_negated (e : IdentityEngine) (output : UInt32) :
    e.ChangesWithin (output / Span.sampleBytes).toNat (negated e output) := by
  unfold negated
  split
  · exact .refl ..
  · split
    · exact .refl ..
    · rename_i arena hw
      exact ⟨rfl, rfl, Arena.changesWithin_of_write hw⟩

theorem changesWithin_processFrame (e : ScriptedEngine) (h : Handle) (output input : UInt32) :
    e.inner.ChangesWithin (output / Span.sampleBytes).toNat
      (e.processFrame h output input).2.inner := by
  have hinner := e.inner.changesWithin_processFrame h output input
  unfold processFrame
  dsimp only
  split
  · exact .refl ..
  · split
    · rename_i hp
      rwa [hp] at hinner
    · rename_i hp
      rw [hp] at hinner
      dsimp only
      split
      · exact hinner.trans (changesWithin_negated _ _)
      · exact hinner

theorem script_processFrame (e : ScriptedEngine) (h : Handle) (output input : UInt32) :
    (e.processFrame h output input).2.script = e.script := by
  unfold processFrame
  dsimp only
  split
  · rfl
  · split <;> rfl

end ScriptedEngine

instance : IdentityDouble ScriptedEngine where
  core e := e.inner
  Steady e := e.script.resize = none
  frameSize_core e h := by
    change e.frameSize = _
    rw [ScriptedEngine.frameSize, h]
  arena_core _ := rfl
  core_withArena _ _ := rfl
  steady_withArena _ _ h := h
  core_create e := by
    obtain ⟨inner, ⟨createError, failAt, failError, negate, vads, resize⟩, calls⟩ := e
    cases createError with
    | none => exact Or.inl rfl
    | some fault => exact Or.inr ⟨fault, rfl, rfl⟩
  steady_create e h := by
    obtain ⟨inner, ⟨createError, failAt, failError, negate, vads, resize⟩, calls⟩ := e
    cases createError <;> exact h
  core_destroy _ _ := rfl
  steady_destroy _ _ h := h
  core_processFrame e h output input := e.changesWithin_processFrame h output input
  steady_processFrame e h output input hs := by
    have := e.script_processFrame h output input
    exact (congrArg Script.resize this).trans hs

instance {σ : Type} [Engine σ] [IdentityDouble σ] : IdentityDouble (Recorded σ) where
  core e := IdentityDouble.core e.inner
  Steady e := IdentityDouble.Steady e.inner
  frameSize_core e := IdentityDouble.frameSize_core e.inner
  arena_core e := IdentityDouble.arena_core e.inner
  core_withArena e := IdentityDouble.core_withArena e.inner
  steady_withArena e := IdentityDouble.steady_withArena e.inner
  core_create e := IdentityDouble.core_create e.inner
  steady_create e := IdentityDouble.steady_create e.inner
  core_destroy e := IdentityDouble.core_destroy e.inner
  steady_destroy e := IdentityDouble.steady_destroy e.inner
  core_processFrame e := IdentityDouble.core_processFrame e.inner
  steady_processFrame e := IdentityDouble.steady_processFrame e.inner

end AudioFraming
