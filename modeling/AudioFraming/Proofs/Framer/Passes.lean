import AudioFraming.Framer.Quantum
import AudioFraming.Proofs.Framer.Lease

/-!
# Frames through an engine

A callback touches its engine in two ways only: it writes to the input span, and it
asks for a frame. A property of the engine that both keep holds after any number of
frames, whether they succeed or not (`invariant_advance`); being held by a lease is
one (`held_advance`).
-/

namespace AudioFraming

namespace Progress

variable {σ : Type}

@[simp] theorem engine_emit (p : Progress σ) (block : List Sample) :
    (p.emit block).engine = p.engine := by
  unfold emit
  split <;> rfl

theorem engine_absorb (p : Progress σ) (block : List Sample) :
    (p.absorb block).2.engine = p.engine := by
  unfold absorb
  dsimp only
  split <;> rfl

variable [Engine σ]

section induction

variable {P : Progress σ → Prop} {lease : Lease} {frame : Nat}
  (hpass : ∀ p, P p → frame ≤ p.input.available → P (p.pass lease frame).2)

include hpass

/-- What every pass keeps while a whole frame waits holds after any number of them. -/
theorem drain_induction : ∀ (passes : Nat) (p : Progress σ), P p →
    P (p.drain lease frame passes).2 := by
  intro passes
  induction passes with
  | zero =>
    intro p hp
    exact hp
  | succ passes ih =>
    intro p hp
    unfold drain
    split
    · rename_i ha
      have hq := hpass p hp ha
      split
      · rename_i he
        rwa [he] at hq
      · rename_i he
        rw [he] at hq
        exact ih _ hq
    · exact hp

theorem advance_induction {p : Progress σ} {block : List Sample} (hp : P (p.absorb block).2) :
    P (p.advance lease frame block).2 := by
  unfold advance
  split
  · rename_i he
    rwa [he] at hp
  · rename_i he
    rw [he] at hp
    exact drain_induction hpass _ _ hp

end induction

section invariant

variable {P : σ → Prop} {lease : Lease} {frame : Nat}
  (hwrite : ∀ e arena block, P e →
    (Engine.arena e).write lease.inputSpan.offset frame block = .ok arena →
      P (Engine.withArena e arena))
  (hserve : ∀ e, P e → P (Engine.processFrame e lease.handle lease.outputSpan.offset
    lease.inputSpan.offset).2)

include hwrite in
theorem invariant_load {p q : Progress σ} (hp : P p.engine) (h : p.load lease frame = .ok q) :
    P q.engine := by
  unfold load at h
  dsimp only at h
  split at h
  · cases h
  · split at h
    · cases h
    · rename_i arena hw
      obtain rfl := Except.ok.inj h
      exact hwrite _ _ _ hp hw

include hwrite hserve

theorem invariant_pass {p : Progress σ} (hp : P p.engine) : P (p.pass lease frame).2.engine := by
  unfold pass
  split
  · exact hp
  · rename_i q hq
    have hserved := hserve _ (invariant_load hwrite hp hq)
    split
    · rename_i he
      rwa [he] at hserved
    · rename_i he
      rw [he] at hserved
      dsimp only
      split
      · exact hserved
      · simpa using hserved

theorem invariant_advance (block : List Sample) {p : Progress σ} (hp : P p.engine) :
    P (p.advance lease frame block).2.engine := by
  refine advance_induction (P := fun p => P p.engine) ?_ ?_
  · intro q hq _
    exact invariant_pass hwrite hserve hq
  · rw [engine_absorb]
    exact hp

end invariant

open IdentityDouble

/-- A lease is held through all that a callback does. -/
theorem held_advance [IdentityDouble σ] {before : IdentityEngine} {lease : Lease}
    (block : List Sample) {p : Progress σ} (hsteady : Steady p.engine)
    (h : lease.Held before (core p.engine)) :
    Steady (p.advance lease before.frameSize.toNat block).2.engine ∧
      lease.Held before (core (p.advance lease before.frameSize.toNat block).2.engine) := by
  apply invariant_advance (P := fun e => Steady e ∧ lease.Held before (core e)) _ _ block
    ⟨hsteady, h⟩
  · rintro e arena written ⟨hs, he⟩ hw
    refine ⟨steady_withArena _ _ hs, ?_⟩
    rw [arena_core] at hw
    rw [core_withArena]
    exact he.withArena (Or.inl rfl) (Arena.changesWithin_of_write hw)
  · rintro e ⟨hs, he⟩
    exact ⟨steady_processFrame _ _ _ _ hs, he.changesWithin (Or.inr rfl) (core_processFrame ..)⟩

end Progress

end AudioFraming
