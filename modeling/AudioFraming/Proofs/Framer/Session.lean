import AudioFraming.Proofs.Framer.Callbacks

/-!
# Sessions

A session is any sequence of calls on a framer. Over a double of an identity engine,
each state that a session leads to is `Balanced`: nothing has been taken yet, a lease
is held, or everything is back. Every call keeps this (`Balanced.after`), whichever of
its steps fails.
-/

namespace AudioFraming

/-- A call on a framer. -/
inductive FramerCall where
  | start
  | command (c : Command)
  /-- A stop that nobody is told of. -/
  | stop
  | quantum (input buffer : List Sample)

/-- A command ends everything, or it goes back and forth between running and pausing. -/
theorem Phase.after_cases {p q : Phase} {c : Command} (h : p.after c = some q) :
    (q = .stopped ∧ p ≠ .stopped) ∨
      (p = .running ∨ p = .paused) ∧ (q = .running ∨ q = .paused) := by
  cases p <;> cases c <;> cases h <;> decide

namespace Framer

section calls

variable {σ : Type} [Engine σ]

/-- The framer after a call. -/
def after (f : Framer σ) : FramerCall → Framer σ
  | .start => f.start.framer
  | .command c => (f.apply c).framer
  | .stop => f.stop
  | .quantum input buffer => (f.quantum input buffer).framer

/-- The events of a call. -/
def eventsOf (f : Framer σ) : FramerCall → List Event
  | .start => []
  | .command c => (f.apply c).events
  | .stop => []
  | .quantum input buffer => (f.quantum input buffer).events

/-- The framer after a session. -/
def replay (f : Framer σ) (calls : List FramerCall) : Framer σ := calls.foldl after f

/-- The events of a session, in the order of their emission. -/
def eventsDuring (f : Framer σ) : List FramerCall → List Event
  | [] => []
  | c :: rest => f.eventsOf c ++ (f.after c).eventsDuring rest

theorem replay_append (f : Framer σ) (calls later : List FramerCall) :
    f.replay (calls ++ later) = (f.replay calls).replay later :=
  List.foldl_append ..

theorem eventsDuring_append (f : Framer σ) (calls later : List FramerCall) :
    f.eventsDuring (calls ++ later) =
      f.eventsDuring calls ++ (f.replay calls).eventsDuring later := by
  induction calls generalizing f with
  | nil => rfl
  | cons c rest ih =>
    rw [List.cons_append, eventsDuring, ih, eventsDuring, List.append_assoc]
    rfl

/-- Only a framer that holds nothing yet can start. -/
theorem start_of_ne {f : Framer σ} (hphase : f.phase ≠ .created) :
    f.start = ⟨f, .error (.invalidState "start" f.phase.name), []⟩ :=
  if_pos hphase

/-- All that a start can do. -/
theorem start_eq (f : Framer σ) :
    (∃ e fault, f.start = ⟨{ f with engine := e }, .error fault, []⟩) ∨
      ∃ e h left logs, f.start = ⟨{ f with
        engine := e
        phase := .running
        holdings := some h
        warmupLeft := left }, .ok (), logs⟩ := by
  unfold start
  split_ifs with hphase hpos
  · exact Or.inl ⟨_, _, rfl⟩
  · split
    · exact Or.inl ⟨_, _, rfl⟩
    · split
      · exact Or.inl ⟨_, _, rfl⟩
      · exact Or.inr ⟨_, _, _, _, rfl⟩
  · split <;> exact Or.inl ⟨_, _, rfl⟩

/-- All that a command can do. -/
theorem apply_eq (f : Framer σ) (c : Command) :
    f.apply c = ⟨f, false, []⟩ ∨ ∃ q, f.phase.after c = some q ∧
      f.apply c = ⟨{ (if q = .stopped then f.release else f) with phase := q }, true,
        [.phaseChanged q]⟩ := by
  unfold apply
  split
  · exact Or.inl rfl
  · rename_i q hafter
    exact Or.inr ⟨q, hafter, rfl⟩

/-- A callback that does not reach the engine. -/
theorem quantum_idle {f : Framer σ} (hphase : f.phase ≠ .running) (input buffer : List Sample) :
    (f.quantum input buffer).framer = { f with callbacks := f.callbacks + 1 } ∧
      (f.quantum input buffer).events = [] := by
  unfold quantum
  dsimp only
  split
  · rename_i hrunning _
    exact absurd hrunning hphase
  · exact ⟨rfl, rfl⟩
  · exact ⟨rfl, rfl⟩

/-- A callback that reaches the engine keeps the lease and goes on or gives up. -/
theorem quantum_running {f : Framer σ} {h : Holdings} (hphase : f.phase = .running)
    (hsome : f.holdings = some h) (input buffer : List Sample) :
    (f.quantum input buffer).framer.engine =
        ((f.progress h).advance h.lease f.engineFrame.toNat input).2.engine ∧
      ((f.quantum input buffer).framer.phase = .running ∨
        (f.quantum input buffer).framer.phase = .bypassed) ∧
      (f.quantum input buffer).framer.sizing = f.sizing ∧
      ∃ rin rout, (f.quantum input buffer).framer.holdings = some ⟨rin, rout, h.lease⟩ := by
  rcases hadvance : (f.progress h).advance h.lease f.engineFrame.toNat input with ⟨fault | fault, p⟩
  · obtain ⟨ring, hframer, -⟩ :=
      hands_deliver { f with callbacks := f.callbacks + 1 } h.lease p buffer
    rw [quantum_eq_deliver hphase hsome hadvance, hframer]
    exact ⟨rfl, Or.inl hphase, rfl, _, _, rfl⟩
  · rw [quantum_eq_fail hphase hsome hadvance]
    exact ⟨rfl, Or.inr rfl, rfl, _, _, rfl⟩

end calls

variable {σ : Type} [Engine σ] [IdentityDouble σ]

open IdentityDouble

/-- What is held in which phase, and what the engine has lent for it. -/
inductive Balanced (before : IdentityEngine) (f : Framer σ) : Prop
  | created (hphase : f.phase = .created) (hnone : f.holdings = none)
      (huntouched : before.Untouched (core f.engine))
  | held (h : Holdings) (hphase : f.phase = .running ∨ f.phase = .paused ∨ f.phase = .bypassed)
      (hsome : f.holdings = some h) (hheld : h.lease.Held before (core f.engine))
  | stopped (hphase : f.phase = .stopped) (hnone : f.holdings = none)
      (hrestored : before.Restored (core f.engine))

namespace Balanced

variable {before : IdentityEngine} {f : Framer σ}

theorem isSome_holdings (hf : Balanced before f) : f.holdings.isSome ↔
      f.phase = .running ∨ f.phase = .paused ∨ f.phase = .bypassed := by
  cases hf with
  | created hphase hnone => simp [hphase, hnone]
  | held h hphase hsome => simp [hphase, hsome]
  | stopped hphase hnone => simp [hphase, hnone]

theorem held_of_some (hf : Balanced before f) {h : Holdings} (hsome : f.holdings = some h) :
    h.lease.Held before (core f.engine) := by
  cases hf with
  | created hphase hnone => simp [hsome] at hnone
  | held h' hphase hsome' hheld =>
    rw [hsome] at hsome'
    obtain rfl := Option.some.inj hsome'
    exact hheld
  | stopped hphase hnone => simp [hsome] at hnone

theorem restored_of_none (hf : Balanced before f) (hnone : f.holdings = none) :
    before.Restored (core f.engine) := by
  cases hf with
  | created hphase hnone' huntouched => exact huntouched.restored
  | held h hphase hsome => simp [hsome] at hnone
  | stopped hphase hnone' hrestored => exact hrestored

/-- The spans of others read as they did. -/
theorem kept (hf : Balanced before f) :
    ∀ u ∈ before.arena.live,
      (core f.engine).arena.read u.offset u.length = before.arena.read u.offset u.length := by
  intro u hu
  cases hsome : f.holdings with
  | none =>
    have hintact := (hf.restored_of_none hsome).arena
    exact Arena.read_eq_of_kept hintact.capacity_eq (hintact.kept u hu)
  | some h =>
    have hspans := (hf.held_of_some hsome).spans
    exact Arena.read_eq_of_kept hspans.capacity_eq (hspans.kept u hu)

theorem exists_held (hf : Balanced before f) (hphase : f.phase = .running) :
    ∃ h, f.holdings = some h ∧ h.lease.Held before (core f.engine) := by
  cases hf with
  | created hphase' => simp [hphase] at hphase'
  | held h hphase' hsome hheld => exact ⟨h, hsome, hheld⟩
  | stopped hphase' => simp [hphase] at hphase'

theorem untouched (hf : Balanced before f) (hphase : f.phase = .created) :
    f.holdings = none ∧ before.Untouched (core f.engine) := by
  cases hf with
  | created hphase' hnone huntouched => exact ⟨hnone, huntouched⟩
  | held h hphase' => simp [hphase] at hphase'
  | stopped hphase' => simp [hphase] at hphase'

/-- Giving back whatever is held restores the engine. -/
theorem release (hf : Balanced before f) (hsteady : Steady f.engine) :
    Steady f.release.engine ∧ f.release.holdings = none ∧
      before.Restored (core f.release.engine) := by
  unfold Framer.release
  cases hf with
  | created hphase hnone huntouched =>
    rw [hnone]
    exact ⟨hsteady, hnone, huntouched.restored⟩
  | held h hphase hsome hheld =>
    rw [hsome]
    exact ⟨Lease.steady_giveBack hsteady _, rfl, Lease.restored_giveBack hheld⟩
  | stopped hphase hnone hrestored =>
    rw [hnone]
    exact ⟨hsteady, hnone, hrestored⟩

theorem start (hf : Balanced before f) (hsteady : Steady f.engine) :
    Steady f.start.framer.engine ∧ Balanced before f.start.framer := by
  by_cases hcreated : f.phase = .created
  · obtain ⟨hnone, huntouched⟩ := hf.untouched hcreated
    rcases start_cases hcreated hsteady huntouched with
      ⟨e, fault, hstart, hsteady', huntouched'⟩ | ⟨e, lease, logs, hpos, hstart, hsteady', hheld, -⟩
    · rw [hstart]
      exact ⟨hsteady', .created hcreated hnone huntouched'⟩
    · rw [hstart]
      exact ⟨hsteady', .held _ (Or.inl rfl) rfl hheld⟩
  · rw [start_of_ne hcreated]
    exact ⟨hsteady, hf⟩

theorem apply (hf : Balanced before f) (hsteady : Steady f.engine) (c : Command) :
    Steady (f.apply c).framer.engine ∧ Balanced before (f.apply c).framer := by
  rcases f.apply_eq c with happly | ⟨q, hafter, happly⟩
  · rw [happly]
    exact ⟨hsteady, hf⟩
  · rw [happly]
    dsimp only
    split_ifs with hstopped
    · obtain ⟨hsteady', hnone, hrestored⟩ := hf.release hsteady
      exact ⟨hsteady', .stopped hstopped hnone hrestored⟩
    · refine ⟨hsteady, ?_⟩
      rcases Phase.after_cases hafter with ⟨hstop, -⟩ | ⟨hbefore, hq⟩
      · exact absurd hstop hstopped
      · cases hf with
        | created hphase => simp [hphase] at hbefore
        | held h hphase hsome hheld =>
          refine .held h ?_ hsome hheld
          rcases hq with hq | hq
          · exact Or.inl hq
          · exact Or.inr (Or.inl hq)
        | stopped hphase => simp [hphase] at hbefore

theorem quantum (hf : Balanced before f) (hsteady : Steady f.engine)
    (input buffer : List Sample) :
    Steady (f.quantum input buffer).framer.engine ∧
      Balanced before (f.quantum input buffer).framer := by
  by_cases hrunning : f.phase = .running
  · obtain ⟨h, hsome, hheld⟩ := hf.exists_held hrunning
    obtain ⟨hengine, hphase', -, rin, rout, hsome'⟩ := quantum_running hrunning hsome input buffer
    have hframe : f.engineFrame = before.frameSize :=
      (frameSize_core _ hsteady).trans hheld.frameSize_eq
    obtain ⟨hsteady', hheld'⟩ := Progress.held_advance input (p := f.progress h) hsteady hheld
    rw [← hframe, ← hengine] at hsteady' hheld'
    refine ⟨hsteady', .held _ ?_ hsome' hheld'⟩
    rcases hphase' with hphase' | hphase'
    · exact Or.inl hphase'
    · exact Or.inr (Or.inr hphase')
  · obtain ⟨hframer, -⟩ := quantum_idle hrunning input buffer
    rw [hframer]
    refine ⟨hsteady, ?_⟩
    cases hf with
    | created hphase hnone huntouched => exact .created hphase hnone huntouched
    | held h hphase hsome hheld => exact .held h hphase hsome hheld
    | stopped hphase hnone hrestored => exact .stopped hphase hnone hrestored

theorem after (hf : Balanced before f) (hsteady : Steady f.engine) (c : FramerCall) :
    Steady (f.after c).engine ∧ Balanced before (f.after c) := by
  cases c with
  | start => exact hf.start hsteady
  | command c => exact hf.apply hsteady c
  | stop => exact hf.apply hsteady .stop
  | quantum input buffer => exact hf.quantum hsteady input buffer

theorem replay (hf : Balanced before f) (hsteady : Steady f.engine) (calls : List FramerCall) :
    Steady (f.replay calls).engine ∧ Balanced before (f.replay calls) := by
  induction calls generalizing f with
  | nil => exact ⟨hsteady, hf⟩
  | cons c rest ih =>
    obtain ⟨hsteady', hf'⟩ := hf.after hsteady c
    exact ih hf' hsteady'

end Balanced

theorem balanced_new {s : σ} (htidy : (core s).arena.Tidy) (sizing : Sizing) :
    Balanced (core s) (new sizing s) :=
  .created rfl rfl (.refl htidy)

end Framer

end AudioFraming
