import AudioFraming.Engine.Recorded
import AudioFraming.Proofs.Framer.Accounts
import AudioFraming.Proofs.Framer.Transport

/-!
# What a framer asks of its engine

A journal around an engine shows the calls that a framer makes on it. It makes no
difference to the framer (`bare_after`), so `requests` can read off a fresh journal what
a single call on any framer asks of its engine. Only a callback of a running framer asks
for frames (`running_of_process_mem_requests`).
-/

namespace AudioFraming

variable {σ : Type}

/-- Without its journal, a recorded engine is the engine that it records. -/
theorem Recorded.isHom [Engine σ] : Engine.IsHom (Recorded.inner : Recorded σ → σ) where
  name_eq _ := rfl
  frameSize_eq _ := rfl
  arena_eq _ := rfl
  withArena_eq _ _ := rfl
  create_eq _ := rfl
  destroy_eq _ _ := rfl
  processFrame_eq _ _ _ _ := rfl

namespace Lease

variable [Engine σ]

/-- Taking a lease asks for an instance, or it fails before that. -/
theorem journal_take (e : Recorded σ) (frame : Nat) :
    (take e frame).2.journal = e.journal ∨ (take e frame).2.journal = .create :: e.journal := by
  unfold take
  rcases (Engine.arena e).allocTwo frame with ⟨spans, arena⟩
  cases spans with
  | error fault => exact Or.inl rfl
  | ok spans =>
    have hcreate : (Engine.create (Engine.withArena e arena)).2.journal = .create :: e.journal :=
      rfl
    dsimp only
    rcases hmade : Engine.create (Engine.withArena e arena) with ⟨handle, e'⟩
    rw [hmade] at hcreate
    cases handle with
    | error fault => exact Or.inr hcreate
    | ok handle => exact Or.inr hcreate

end Lease

namespace Framer

/-- The framer without the journal of its engine. -/
def bare (f : Framer (Recorded σ)) : Framer σ where
  sizing := f.sizing
  engine := f.engine.inner
  phase := f.phase
  holdings := f.holdings
  warmupLeft := f.warmupLeft
  callbacks := f.callbacks
  frames := f.frames
  vad := f.vad

variable [Engine σ]

theorem bare_after (f : Framer (Recorded σ)) (c : FramerCall) :
    f.bare.after c = (f.after c).bare :=
  after_map Recorded.isHom f c

/-! ## Requests -/

/-- The framer with a fresh journal around its engine. -/
def recorded (f : Framer σ) : Framer (Recorded σ) where
  sizing := f.sizing
  engine := ⟨f.engine, []⟩
  phase := f.phase
  holdings := f.holdings
  warmupLeft := f.warmupLeft
  callbacks := f.callbacks
  frames := f.frames
  vad := f.vad

/-- The engine does not notice that its calls are recorded. -/
theorem bare_after_recorded (f : Framer σ) (c : FramerCall) :
    (f.recorded.after c).bare = f.after c :=
  (f.recorded.bare_after c).symm

/-- What a call asks of the engine, in order. -/
def requests (f : Framer σ) (c : FramerCall) : List EngineCall :=
  (f.recorded.after c).engine.takeJournal.1

theorem mem_requests {f : Framer σ} {c : FramerCall} {r : EngineCall} :
    r ∈ f.requests c ↔ r ∈ (f.recorded.after c).engine.journal := List.mem_reverse

/-- A start asks for an instance at most. -/
theorem eq_create_of_mem_requests_start {f : Framer σ} {r : EngineCall}
    (hr : r ∈ f.requests .start) : r = .create := by
  have hjournal : f.recorded.start.framer.engine.journal = [] ∨
      f.recorded.start.framer.engine.journal = [.create] := by
    have htake := Lease.journal_take f.recorded.engine f.recorded.engineFrame.toNat
    unfold start
    split_ifs
    · exact Or.inl rfl
    · split
      · exact Or.inl rfl
      · split
        · rename_i he
          rwa [he] at htake
        · rename_i he
          rwa [he] at htake
    · split <;> exact Or.inl rfl
  rw [mem_requests] at hr
  change r ∈ f.recorded.start.framer.engine.journal at hr
  rcases hjournal with hjournal | hjournal
  · rw [hjournal] at hr
    cases hr
  · rw [hjournal] at hr
    exact List.mem_singleton.mp hr

theorem journal_release (f : Framer (Recorded σ)) :
    f.release.engine.journal =
      (f.holdings.map fun h => .destroy h.lease.handle).toList ++ f.engine.journal := by
  unfold release
  cases hsome : f.holdings with
  | none => rfl
  | some h => rfl

/-- A command ends an instance at most. -/
theorem eq_destroy_of_mem_requests_command {f : Framer σ} {c : Command} {r : EngineCall}
    (hr : r ∈ f.requests (.command c)) : ∃ handle, r = .destroy handle := by
  rw [mem_requests] at hr
  change r ∈ (f.recorded.apply c).framer.engine.journal at hr
  rcases f.recorded.apply_eq c with happly | ⟨q, -, happly⟩
  · rw [happly] at hr
    cases hr
  · rw [happly] at hr
    dsimp only at hr
    split_ifs at hr
    · rw [journal_release, List.mem_append] at hr
      rcases hr with hr | hr
      · obtain ⟨h, -, rfl⟩ := Option.map_eq_some_iff.mp (Option.mem_toList.mp hr)
        exact ⟨_, rfl⟩
      · cases hr
    · cases hr

/-- A callback that does not reach the engine asks it for nothing. -/
theorem requests_quantum_idle {f : Framer σ} (hphase : f.phase ≠ .running)
    (input buffer : List Sample) : f.requests (.quantum input buffer) = [] := by
  have hframer : f.recorded.after (.quantum input buffer) =
      { f.recorded with callbacks := f.recorded.callbacks + 1 } :=
    (quantum_idle (f := f.recorded) hphase input buffer).1
  rw [requests, hframer]
  rfl

/-- Frames are only asked for by callbacks, and only while the framer runs. -/
theorem running_of_process_mem_requests {f : Framer σ} {c : FramerCall} {handle : Handle}
    {output input : UInt32} (hr : .process handle output input ∈ f.requests c) :
    f.phase = .running := by
  cases c with
  | start => cases eq_create_of_mem_requests_start hr
  | command c => cases (eq_destroy_of_mem_requests_command hr).choose_spec
  | stop => cases (eq_destroy_of_mem_requests_command (c := .stop) hr).choose_spec
  | quantum input buffer =>
    by_contra hphase
    rw [requests_quantum_idle hphase] at hr
    cases hr

end Framer

end AudioFraming
