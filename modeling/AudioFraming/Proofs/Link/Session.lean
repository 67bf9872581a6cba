import AudioFraming.Link
import AudioFraming.Proofs.Framer.Session

/-!
# Sessions over a link

The two sides of a link take turns in any order. Whatever the audio side does for the
control side comes down to a session of its framer: the commands that wait, one after
the other, and a callback if there is one. The link carries the framer through that
session and sends the events of it back (`applyCommands_eq`, `process_eq`); how many of
them arrive makes no difference to the framer.
-/

namespace AudioFraming

/-- A call on one of the two sides of a link. A side that has been dropped is not called any
more. -/
inductive LinkCall where
  | send (c : Command)
  | post (text : String)
  | poll
  | readback
  | dropControl
  | process (input buffer : List Sample)
  /-- Applies the commands that wait, without a callback. -/
  | drain
  /-- A call on the framer itself, around the link. -/
  | direct (c : FramerCall)
  | dropAudio

namespace Link

variable {σ : Type}

/-! ## Sending events back -/

@[simp] theorem audio_emit (l : Link σ) (e : Event) : (l.emit e).audio = l.audio := by
  unfold emit
  dsimp only
  split <;> rfl

@[simp] theorem commands_emit (l : Link σ) (e : Event) : (l.emit e).commands = l.commands := by
  unfold emit
  dsimp only
  split <;> rfl

@[simp] theorem controlHeld_emit (l : Link σ) (e : Event) :
    (l.emit e).controlHeld = l.controlHeld := by
  unfold emit
  dsimp only
  split <;> rfl

theorem emit_withAudio (l : Link σ) (e : Event) (audio : Option (Framer σ)) :
    { l.emit e with audio := audio } = { l with audio := audio }.emit e := by
  unfold emit
  dsimp only
  split <;> rfl

theorem emitAll_cons (l : Link σ) (e : Event) (rest : List Event) :
    l.emitAll (e :: rest) = (l.emit e).emitAll rest := rfl

theorem emitAll_append (l : Link σ) (events later : List Event) :
    l.emitAll (events ++ later) = (l.emitAll events).emitAll later :=
  List.foldl_append ..

@[simp] theorem audio_emitAll (l : Link σ) (events : List Event) :
    (l.emitAll events).audio = l.audio := by
  induction events generalizing l with
  | nil => rfl
  | cons e rest ih => rw [emitAll_cons, ih, audio_emit]

@[simp] theorem commands_emitAll (l : Link σ) (events : List Event) :
    (l.emitAll events).commands = l.commands := by
  induction events generalizing l with
  | nil => rfl
  | cons e rest ih => rw [emitAll_cons, ih, commands_emit]

@[simp] theorem controlHeld_emitAll (l : Link σ) (events : List Event) :
    (l.emitAll events).controlHeld = l.controlHeld := by
  induction events generalizing l with
  | nil => rfl
  | cons e rest ih => rw [emitAll_cons, ih, controlHeld_emit]

/-- Events go back in the same way whatever becomes of the framer. -/
theorem emitAll_withAudio (l : Link σ) (events : List Event) (audio : Option (Framer σ)) :
    { l.emitAll events with audio := audio } = { l with audio := audio }.emitAll events := by
  induction events generalizing l with
  | nil => rfl
  | cons e rest ih => rw [emitAll_cons, ih, emit_withAudio, ← emitAll_cons]

/-! ## What the audio side does -/

variable [Engine σ]

/-- The commands that wait, as calls on the framer. -/
def waiting (l : Link σ) : List FramerCall := l.commands.map .command

theorem foldl_applyCommand (commands : List Command) (l : Link σ) {f : Framer σ}
    (h : l.audio = some f) :
    commands.foldl applyCommand l =
      { l with audio := some (f.replay (commands.map .command)) }.emitAll
        (f.eventsDuring (commands.map .command)) := by
  induction commands generalizing l f with
  | nil =>
    change l = { l with audio := some f }
    rw [← h]
  | cons c rest ih =>
    have hone : l.applyCommand c =
        { l with audio := some (f.apply c).framer }.emitAll (f.apply c).events := by
      simp only [applyCommand, h]
    have haudio : (l.applyCommand c).audio = some (f.apply c).framer := by
      rw [hone, audio_emitAll]
    rw [List.foldl_cons, ih _ haudio, hone, emitAll_withAudio, ← emitAll_append]
    rfl

/-- The framer goes through the commands that wait, and the link sends their events back. -/
theorem applyCommands_eq {l : Link σ} {f : Framer σ} (h : l.audio = some f) :
    l.applyCommands = { l with audio := some (f.replay l.waiting), commands := [] }.emitAll
      (f.eventsDuring l.waiting) :=
  foldl_applyCommand l.commands { l with commands := [] } h

theorem applyCommands_of_none {l : Link σ} (h : l.audio = none) :
    l.applyCommands = { l with commands := [] } := by
  have hsame : ∀ (commands : List Command) (l : Link σ), l.audio = none →
      commands.foldl applyCommand l = l := by
    intro commands
    induction commands with
    | nil => exact fun l _ => rfl
    | cons c rest ih =>
      intro l h
      have hone : l.applyCommand c = l := by simp only [applyCommand, h]
      rw [List.foldl_cons, hone, ih l h]
  exact hsame _ _ h

/-- A callback comes after the commands that wait, and the events of both go back. The readback
shows the framer as it is then. -/
theorem process_eq {l : Link σ} {f : Framer σ} (h : l.audio = some f)
    (input buffer : List Sample) :
    let calls := l.waiting ++ [.quantum input buffer]
    let g := f.replay calls
    let m := { l with audio := some g, commands := [] }.emitAll (f.eventsDuring calls)
    l.process input buffer = (((f.replay l.waiting).quantum input buffer).answer,
      { m with readback := { m.readback with
        phase := g.phase
        callbacks := g.callbacks
        frames := g.frames
        vad := g.vad } }) := by
  intro calls g m
  have haudio : l.applyCommands.audio = some (f.replay l.waiting) := by
    rw [applyCommands_eq h, audio_emitAll]
  have hframer : g = ((f.replay l.waiting).quantum input buffer).framer :=
    f.replay_append l.waiting _
  have hevents : f.eventsDuring calls =
      f.eventsDuring l.waiting ++ ((f.replay l.waiting).quantum input buffer).events := by
    rw [Framer.eventsDuring_append]
    exact congrArg _ (List.append_nil _)
  have hlink : { l.applyCommands with audio := some g }.emitAll
      ((f.replay l.waiting).quantum input buffer).events = m := by
    rw [applyCommands_eq h, emitAll_withAudio, ← emitAll_append, ← hevents]
  unfold process
  simp only [haudio, ← hframer, hlink]

theorem process_of_none {l : Link σ} (h : l.audio = none) (input buffer : List Sample) :
    l.process input buffer = (⟨false, buffer⟩, { l with commands := [] }) := by
  unfold process
  simp only [applyCommands_of_none h, h]

/-! ## Sessions -/

/-- The link after a call. -/
def after (l : Link σ) : LinkCall → Link σ
  | .send c => if l.controlHeld then (l.send c).2 else l
  | .post text =>
    if l.controlHeld then
      match l.post text with
      | .ok (_, l) => l
      | .error _ => l
    else l
  | .poll => if l.controlHeld then l.poll.2 else l
  | .readback => l
  | .dropControl => l.dropControl
  | .process input buffer => (l.process input buffer).2
  | .drain => l.applyCommands
  | .direct c => { l with audio := l.audio.map fun f => f.after c }
  | .dropAudio => l.dropAudio

/-- An audio side that has been dropped does not come back. -/
theorem audio_after_of_none {l : Link σ} (h : l.audio = none) (c : LinkCall) :
    (l.after c).audio = none := by
  cases c with
  | process input buffer => simp [after, process_of_none h, h]
  | drain => simp [after, applyCommands_of_none h, h]
  | direct call => simp [after, h]
  | dropAudio => rfl
  | dropControl => exact h
  | send c => simp [after, send, h]
  | post text =>
    simp only [after, post, send, h]
    cases Command.ofText text <;> simp [h]
  | poll =>
    simp only [after]
    split <;> exact h
  | readback => exact h

/-- Nor does a control side. -/
theorem controlHeld_after_of_dropped {l : Link σ} (h : l.controlHeld = false) (c : LinkCall) :
    (l.after c).controlHeld = false := by
  cases c with
  | process input buffer =>
    cases haudio : l.audio with
    | none => simp [after, process_of_none haudio, h]
    | some f => simp [after, process_eq haudio, h]
  | drain =>
    cases haudio : l.audio with
    | none => simp [after, applyCommands_of_none haudio, h]
    | some f => simp [after, applyCommands_eq haudio, h]
  | dropControl => rfl
  | dropAudio => exact h
  | _ => simp [after, h]

end Link

end AudioFraming
