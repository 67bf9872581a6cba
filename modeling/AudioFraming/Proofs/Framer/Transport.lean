import AudioFraming.Proofs.Framer.Session

/-!
# Framers over engines that behave alike

A map between the states of two engines that goes along with all that is asked of an engine
(`Engine.IsHom`) takes a framer over the one to a framer over the other. No call tells the two
apart (`Framer.after_map`, `Framer.eventsOf_map`): a framer does not look into its engine. This is
how something can be kept next to an engine, such as a journal, and be forgotten again.
-/

namespace AudioFraming

variable {τ σ : Type}

/-- Whatever is asked of an engine, the other one answers the same, and they stay together. -/
structure Engine.IsHom [Engine τ] [Engine σ] (φ : τ → σ) : Prop where
  name_eq : ∀ e, name (φ e) = name e
  frameSize_eq : ∀ e, frameSize (φ e) = frameSize e
  arena_eq : ∀ e, arena (φ e) = arena e
  withArena_eq : ∀ e a, withArena (φ e) a = φ (withArena e a)
  create_eq : ∀ e, create (φ e) = (create e).map id φ
  destroy_eq : ∀ e handle, destroy (φ e) handle = φ (destroy e handle)
  processFrame_eq : ∀ e handle output input,
    processFrame (φ e) handle output input = (processFrame e handle output input).map id φ

namespace Progress

def map (φ : τ → σ) (p : Progress τ) : Progress σ where
  engine := φ p.engine
  input := p.input
  output := p.output
  frames := p.frames
  vad := p.vad
  events := p.events

variable {φ : τ → σ}

theorem absorb_map (p : Progress τ) (block : List Sample) :
    (p.map φ).absorb block = (p.absorb block).map id (map φ) := by
  unfold absorb
  cases hpush : p.input.push block with
  | error e => simp only [map, hpush, Prod.map, id]
  | ok pushed => simp only [map, hpush, Prod.map, id]

theorem emit_map (p : Progress τ) (block : List Sample) :
    (p.map φ).emit block = (p.emit block).map φ := by
  unfold emit
  cases hpush : p.output.push block with
  | error e => simp only [map, hpush]
  | ok pushed => simp only [map, hpush]

variable [Engine τ] [Engine σ] {lease : Lease} {frame : Nat} (hφ : Engine.IsHom φ)
include hφ

theorem load_map (p : Progress τ) :
    (p.map φ).load lease frame = (p.load lease frame).map (map φ) := by
  have harena : Engine.arena (p.map φ).engine = Engine.arena p.engine := hφ.arena_eq _
  have hinput : (p.map φ).input = p.input := rfl
  unfold load
  simp only [harena, hinput]
  cases (Engine.arena p.engine).read lease.inputSpan.offset frame with
  | error e => rfl
  | ok stale =>
    dsimp only
    cases (Engine.arena p.engine).write lease.inputSpan.offset frame
        (p.input.pull stale).block with
    | error e => rfl
    | ok arena => simp only [map, Except.map, hφ.withArena_eq]

theorem pass_map (p : Progress τ) :
    (p.map φ).pass lease frame = (p.pass lease frame).map id (map φ) := by
  unfold pass
  rw [load_map hφ]
  cases p.load lease frame with
  | error e => rfl
  | ok q =>
    have hserve := hφ.processFrame_eq q.engine lease.handle lease.outputSpan.offset
      lease.inputSpan.offset
    simp only [Except.map, map, hserve]
    rcases Engine.processFrame q.engine lease.handle lease.outputSpan.offset
      lease.inputSpan.offset with ⟨answer, e⟩
    cases answer with
    | error fault => rfl
    | ok vad =>
      simp only [Prod.map, id, hφ.arena_eq]
      cases (Engine.arena e).read lease.outputSpan.offset frame with
      | error fault => rfl
      | ok made =>
        have hemit := emit_map (φ := φ) { q with engine := e, vad := vad } made
        simp only [map] at hemit
        simp [map, hemit]

theorem drain_map (passes : Nat) (p : Progress τ) :
    (p.map φ).drain lease frame passes = (p.drain lease frame passes).map id (map φ) := by
  induction passes generalizing p with
  | zero => rfl
  | succ passes ih =>
    have hinput : (p.map φ).input = p.input := rfl
    unfold drain
    rw [pass_map hφ, hinput]
    split_ifs
    · rcases p.pass lease frame with ⟨fault, q⟩
      cases fault with
      | some e => rfl
      | none => exact ih q
    · rfl

theorem advance_map (p : Progress τ) (block : List Sample) :
    (p.map φ).advance lease frame block = (p.advance lease frame block).map id (map φ) := by
  unfold advance
  rw [absorb_map]
  rcases p.absorb block with ⟨fault, q⟩
  cases fault with
  | some e => rfl
  | none => exact drain_map hφ _ q

end Progress

theorem Lease.take_map [Engine τ] [Engine σ] {φ : τ → σ} (hφ : Engine.IsHom φ) (e : τ)
    (frame : Nat) : Lease.take (φ e) frame = (Lease.take e frame).map id φ := by
  unfold take
  rw [hφ.arena_eq]
  rcases (Engine.arena e).allocTwo frame with ⟨spans, arena⟩
  cases spans with
  | error fault => simp only [hφ.withArena_eq, Prod.map, id]
  | ok spans =>
    simp only [hφ.withArena_eq, hφ.create_eq]
    rcases Engine.create (Engine.withArena e arena) with ⟨handle, e'⟩
    cases handle with
    | error fault => simp only [hφ.withArena_eq, hφ.arena_eq, Prod.map, id]
    | ok handle => rfl

def Framer.map (φ : τ → σ) (f : Framer τ) : Framer σ where
  sizing := f.sizing
  engine := φ f.engine
  phase := f.phase
  holdings := f.holdings
  warmupLeft := f.warmupLeft
  callbacks := f.callbacks
  frames := f.frames
  vad := f.vad

def Outcome.map {α : Type} (φ : τ → σ) (o : Outcome τ α) : Outcome σ α :=
  ⟨o.framer.map φ, o.answer, o.events⟩

def StartOutcome.map (φ : τ → σ) (o : StartOutcome τ) : StartOutcome σ :=
  ⟨o.framer.map φ, o.result, o.logs⟩

namespace Framer

variable {φ : τ → σ}

theorem deliver_map (f : Framer τ) (lease : Lease) (p : Progress τ) (buffer : List Sample) :
    (f.map φ).deliver lease (p.map φ) buffer = (f.deliver lease p buffer).map φ := by
  have hleft : (f.map φ).warmupLeft = f.warmupLeft := rfl
  have houtput : (p.map φ).output = p.output := rfl
  unfold deliver
  rw [hleft, houtput]
  dsimp only
  split_ifs <;> rfl

variable [Engine τ] [Engine σ] (hφ : Engine.IsHom φ)
include hφ

theorem start_map (f : Framer τ) : (f.map φ).start = f.start.map φ := by
  have hphase : (f.map φ).phase = f.phase := rfl
  have hsizing : (f.map φ).sizing = f.sizing := rfl
  have hframe : (f.map φ).engineFrame = f.engineFrame := hφ.frameSize_eq _
  have htake : Lease.take (f.map φ).engine f.engineFrame.toNat =
      (Lease.take f.engine f.engineFrame.toNat).map id φ := Lease.take_map hφ ..
  unfold start
  rw [hphase, hsizing, hframe, htake]
  split_ifs with hcreated hpos
  · rfl
  · cases f.sizing.check f.engineFrame with
    | error e => rfl
    | ok _ =>
      dsimp only
      rcases Lease.take f.engine f.engineFrame.toNat with ⟨lease, e⟩
      cases lease with
      | error fault => rfl
      | ok lease => simp only [StartOutcome.map, Prod.map, id, startRecord, map, hφ.name_eq]
  · cases f.sizing.check f.engineFrame with
    | error e => rfl
    | ok _ => rfl

theorem release_map (f : Framer τ) : (f.map φ).release = f.release.map φ := by
  have hholdings : (f.map φ).holdings = f.holdings := rfl
  unfold release
  rw [hholdings]
  cases f.holdings with
  | none => rfl
  | some h =>
    simp only [map, Lease.giveBack, hφ.destroy_eq, hφ.arena_eq, hφ.withArena_eq]

theorem apply_map (f : Framer τ) (c : Command) : (f.map φ).apply c = (f.apply c).map φ := by
  have hphase : (f.map φ).phase = f.phase := rfl
  unfold apply
  rw [hphase]
  cases f.phase.after c with
  | none => rfl
  | some q =>
    dsimp only
    split_ifs
    · rw [release_map hφ]
      rfl
    · rfl

theorem run_map (f : Framer τ) (h : Holdings) (frame : Nat) (input buffer : List Sample) :
    (f.map φ).run h frame input buffer = (f.run h frame input buffer).map φ := by
  have hprogress : (f.map φ).progress h = (f.progress h).map φ := rfl
  unfold run
  rw [hprogress, Progress.advance_map hφ]
  rcases (f.progress h).advance h.lease frame input with ⟨fault, p⟩
  cases fault with
  | some e => rfl
  | none => exact f.deliver_map h.lease p buffer

theorem quantum_map (f : Framer τ) (input buffer : List Sample) :
    (f.map φ).quantum input buffer = (f.quantum input buffer).map φ := by
  have hframe : (f.map φ).engineFrame = f.engineFrame := hφ.frameSize_eq _
  by_cases hruns : f.phase = .running ∧ ∃ h, f.holdings = some h
  · obtain ⟨hphase, h, hsome⟩ := hruns
    rw [quantum_eq_run hphase hsome, quantum_eq_run (f := f.map φ) hphase hsome, hframe]
    exact run_map hφ { f with callbacks := f.callbacks + 1 } ..
  · rw [quantum_of_not_runs hruns, quantum_of_not_runs (f := f.map φ) hruns]
    rfl

/-! ## Sessions -/

theorem after_map (f : Framer τ) (c : FramerCall) :
    (f.map φ).after c = (f.after c).map φ := by
  cases c with
  | start => exact congrArg StartOutcome.framer (start_map hφ f)
  | command c => exact congrArg Outcome.framer (apply_map hφ f c)
  | stop => exact congrArg Outcome.framer (apply_map hφ f .stop)
  | quantum input buffer => exact congrArg Outcome.framer (quantum_map hφ f input buffer)

theorem eventsOf_map (f : Framer τ) (c : FramerCall) :
    (f.map φ).eventsOf c = f.eventsOf c := by
  cases c with
  | start => rfl
  | command c => exact congrArg Outcome.events (apply_map hφ f c)
  | stop => rfl
  | quantum input buffer => exact congrArg Outcome.events (quantum_map hφ f input buffer)

theorem eventsDuring_map (f : Framer τ) (calls : List FramerCall) :
    (f.map φ).eventsDuring calls = f.eventsDuring calls := by
  induction calls generalizing f with
  | nil => rfl
  | cons c rest ih => rw [eventsDuring, eventsDuring, eventsOf_map hφ, after_map hφ, ih]

end Framer

end AudioFraming
