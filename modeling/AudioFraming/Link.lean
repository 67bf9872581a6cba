import AudioFraming.Framer.Quantum
import AudioFraming.Message

/-!
# Links

A link joins a control side to an audio side. Commands go to the audio side in
order and without bound, and are applied before the next callback. Events come
back through a queue of limited length; those that find it full are dropped and
counted. After each callback the audio side leaves a readback.

Either side can be dropped. Commands already sent are still applied, and events
already queued can still be polled.
-/

namespace AudioFraming

/-- How many events wait for the control side at most. -/
def eventQueueLimit : Nat := 256

/-- What the control side can see of the audio side. -/
structure Readback where
  phase : Phase
  callbacks : Nat := 0
  frames : Nat := 0
  /-- Overflow events that went through the link, dropped ones included. -/
  overflows : Nat := 0
  /-- Underflow events that went through the link, dropped ones included. -/
  underflows : Nat := 0
  vad : Sample := .zero
deriving DecidableEq, Inhabited

structure Link (σ : Type) where
  /-- The audio side, until it is dropped. -/
  audio : Option (Framer σ)
  controlHeld : Bool := true
  /-- Commands on their way, oldest first. -/
  commands : List Command := []
  /-- Events on their way, oldest first. -/
  events : List Event := []
  /-- Events dropped since the last poll. -/
  dropped : Nat := 0
  readback : Readback

namespace Link

variable {σ : Type}

/-- Sends an event back, if there is room for it and someone to receive it. -/
def emit (l : Link σ) (e : Event) : Link σ :=
  let readback := match e with
    | .overflow .. => { l.readback with overflows := l.readback.overflows + 1 }
    | .underflow _ => { l.readback with underflows := l.readback.underflows + 1 }
    | _ => l.readback
  if l.controlHeld ∧ l.events.length < eventQueueLimit then
    { l with events := l.events ++ [e], readback := readback }
  else { l with dropped := l.dropped + 1, readback := readback }

def emitAll (l : Link σ) (events : List Event) : Link σ := events.foldl emit l

/-- A link around a framer. If the framer runs, the event of its start is queued. -/
def ofFramer (f : Framer σ) : Link σ where
  audio := some f
  events :=
    if f.phase.isRunning then
      [.started f.sizing.quantum.toNat f.sizing.frame.toNat f.sizing.latency.toNat]
    else []
  readback := { phase := f.phase }

/-! ## The control side -/

/-- Sends a command, unless the audio side is gone. -/
def send (l : Link σ) (c : Command) : Bool × Link σ :=
  if l.audio.isSome then (true, { l with commands := l.commands ++ [c] }) else (false, l)

/-- Sends the command that a text asks for. -/
def post (l : Link σ) (text : String) : Except Json.Fault (Bool × Link σ) :=
  match Command.ofText text with
  | .error fault => .error fault
  | .ok c => .ok (l.send c)

/-- The log record of dropped events. -/
def droppedRecord (n : Nat) : LogRecord := ⟨.warn, s!"{n} diagnostics dropped, queue full"⟩

/-- What a poll finds, and what it logs. -/
structure Poll where
  events : List Event
  logs : List LogRecord
deriving DecidableEq

/-- Takes all events that wait and forgets how many were dropped. -/
def poll (l : Link σ) : Poll × Link σ :=
  let warning := if 0 < l.dropped then [droppedRecord l.dropped] else []
  (⟨l.events, l.events.filterMap Event.logRecord? ++ warning⟩,
    { l with events := [], dropped := 0 })

def dropControl (l : Link σ) : Link σ := { l with controlHeld := false, events := [] }

/-! ## The audio side -/

def dropAudio (l : Link σ) : Link σ := { l with audio := none, commands := [] }

variable [Engine σ]

/-- Applies one command. -/
def applyCommand (l : Link σ) (c : Command) : Link σ :=
  match l.audio with
  | none => l
  | some f =>
    let outcome := f.apply c
    { l with audio := some outcome.framer }.emitAll outcome.events

/-- Applies all commands sent so far, in order. -/
def applyCommands (l : Link σ) : Link σ :=
  l.commands.foldl applyCommand { l with commands := [] }

/-- One host callback. Without an audio side the buffer stays as it is. -/
def process (l : Link σ) (input buffer : List Sample) : Delivery × Link σ :=
  let l := l.applyCommands
  match l.audio with
  | none => (⟨false, buffer⟩, l)
  | some f =>
    let outcome := f.quantum input buffer
    let l := { l with audio := some outcome.framer }.emitAll outcome.events
    (outcome.answer, { l with
      readback := { l.readback with
        phase := outcome.framer.phase
        callbacks := outcome.framer.callbacks
        frames := outcome.framer.frames
        vad := outcome.framer.vad } })

theorem length_process (l : Link σ) (input buffer : List Sample) :
    (l.process input buffer).1.block.length = buffer.length := by
  unfold process
  dsimp only
  split
  · rfl
  · exact Framer.length_quantum _ _ _

instance : AudioCallback (Link σ) where
  call := process
  length_call := length_process

end Link

end AudioFraming
