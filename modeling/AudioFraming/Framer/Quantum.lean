import AudioFraming.Callback
import AudioFraming.Framer.Basic

/-!
# One callback

A running framer queues the host's block, sends every whole frame that waits
through the engine, and fills the host's buffer from what came out. The first
callbacks after a start deliver silence, so that later ones find their quantum
waiting. Whatever goes wrong on the way, the framer falls back to passing its
input through, for good.
-/

namespace AudioFraming

/-- What changes while frames go through the engine. -/
structure Progress (σ : Type) where
  engine : σ
  input : SampleRing
  output : SampleRing
  frames : Nat
  vad : Sample
  events : List Event

/-- The event, if any, of a push that took a ring from one tally to another. -/
def overflowEvents (side : Side) (before after : RingTally) : List Event :=
  if before.overflows < after.overflows then [.overflow side (after.evicted - before.evicted)]
  else []

/-- The input cut or filled up with silence to a given length. -/
def passThrough (input : List Sample) (length : Nat) : List Sample :=
  input.take length ++ Sample.silence (length - input.length)

@[simp] theorem length_passThrough (input : List Sample) (length : Nat) :
    (passThrough input length).length = length := by
  simp [passThrough]
  omega

namespace Progress

variable {σ : Type} [Engine σ]

/-- Queues the host's block. -/
def absorb (p : Progress σ) (block : List Sample) : Option SetupError × Progress σ :=
  let noted := if block = [] then p.events ++ [.emptyPush .input] else p.events
  match p.input.push block with
  | .error e => (some e, { p with events := noted })
  | .ok (_, ring) =>
    (none, { p with
      input := ring
      events := noted ++ overflowEvents .input p.input.tally ring.tally })

/-- Queues a frame that the engine has made. Both rings hold the same, so a frame that came out
of one fits the other. -/
def emit (p : Progress σ) (block : List Sample) : Progress σ :=
  match p.output.push block with
  | .error _ => p
  | .ok (_, ring) =>
    { p with
      output := ring
      events := p.events ++ overflowEvents .output p.output.tally ring.tally }

/-- Moves a frame from the input ring to the engine's input span. -/
def load (p : Progress σ) (lease : Lease) (frame : Nat) : Except EngineError (Progress σ) :=
  let arena := Engine.arena p.engine
  match arena.read lease.inputSpan.offset frame with
  | .error e => .error e
  | .ok stale =>
    let pulled := p.input.pull stale
    match arena.write lease.inputSpan.offset frame pulled.block with
    | .error e => .error e
    | .ok arena =>
      .ok { p with engine := Engine.withArena p.engine arena, input := pulled.ring }

/-- Sends one frame through the engine. -/
def pass (p : Progress σ) (lease : Lease) (frame : Nat) : Option SetupError × Progress σ :=
  match p.load lease frame with
  | .error e => (some (.engine e), p)
  | .ok p =>
    match Engine.processFrame p.engine lease.handle lease.outputSpan.offset
        lease.inputSpan.offset with
    | (.error e, engine) => (some (.engine e), { p with engine := engine })
    | (.ok vad, engine) =>
      let p := { p with engine := engine, vad := vad }
      match (Engine.arena engine).read lease.outputSpan.offset frame with
      | .error e => (some (.engine e), p)
      | .ok made => (none, { p.emit made with frames := p.frames + 1 })

/-- Sends whole frames through the engine while there are any, at most `passes` of them. -/
def drain (lease : Lease) (frame : Nat) : Nat → Progress σ → Option SetupError × Progress σ
  | 0, p => (none, p)
  | passes + 1, p =>
    if frame ≤ p.input.available then
      match p.pass lease frame with
      | (some e, p) => (some e, p)
      | (none, p) => drain lease frame passes p
    else (none, p)

/-- Enough passes for all whole frames. Each one takes a sample or more, unless frames are empty:
then there is always another one, and an engine is served until it fails or has been sent as
many frames as 64 bits can count. -/
def passLimit (frame available : Nat) : Nat := if frame = 0 then UInt64.size else available

/-- Queues a block and sends through what has become whole. -/
def advance (p : Progress σ) (lease : Lease) (frame : Nat) (block : List Sample) :
    Option SetupError × Progress σ :=
  match p.absorb block with
  | (some e, p) => (some e, p)
  | (none, p) => p.drain lease frame (passLimit frame p.input.available)

end Progress

namespace Framer

variable {σ : Type}

/-- Where a callback begins. -/
def progress (f : Framer σ) (h : Holdings) : Progress σ :=
  ⟨f.engine, h.input, h.output, f.frames, f.vad, []⟩

/-- The framer with the changes of a callback. -/
def adopt (f : Framer σ) (lease : Lease) (p : Progress σ) : Framer σ :=
  { f with
    engine := p.engine
    holdings := some ⟨p.input, p.output, lease⟩
    frames := p.frames
    vad := p.vad }

/-- Gives up on the engine: empties the rings and passes the input through. -/
def fail (f : Framer σ) (lease : Lease) (p : Progress σ) (e : SetupError)
    (input : List Sample) (length : Nat) : Outcome σ Delivery where
  framer :=
    { f.adopt lease { p with input := p.input.clear, output := p.output.clear } with
      phase := .bypassed }
  answer := ⟨true, passThrough input length⟩
  events := p.events ++ [.ofFailure e, .phaseChanged .bypassed]

/-- Fills the buffer from the output ring, or with silence during warm-up and on underflow. -/
def deliver (f : Framer σ) (lease : Lease) (p : Progress σ) (buffer : List Sample) :
    Outcome σ Delivery :=
  if 0 < f.warmupLeft then
    ⟨{ f.adopt lease p with warmupLeft := f.warmupLeft - 1 },
      ⟨true, Sample.silence buffer.length⟩, p.events⟩
  else
    let pulled := p.output.pull buffer
    let f := f.adopt lease { p with output := pulled.ring }
    if pulled.count = 0 ∧ buffer ≠ [] then
      ⟨f, ⟨true, Sample.silence buffer.length⟩, p.events ++ [.underflow .output]⟩
    else ⟨f, ⟨true, pulled.block⟩, p.events⟩

theorem length_deliver (f : Framer σ) (lease : Lease) (p : Progress σ) (buffer : List Sample) :
    (f.deliver lease p buffer).answer.block.length = buffer.length := by
  unfold deliver
  split
  · simp
  · dsimp only
    split <;> simp

variable [Engine σ]

/-- A callback while running, with the engine asking for a given frame size. -/
def run (f : Framer σ) (h : Holdings) (frame : Nat) (input buffer : List Sample) :
    Outcome σ Delivery :=
  match (f.progress h).advance h.lease frame input with
  | (some e, p) => f.fail h.lease p e input buffer.length
  | (none, p) => f.deliver h.lease p buffer

/-- One host callback. It asks the host to stop once the framer has stopped. -/
def quantum (f : Framer σ) (input buffer : List Sample) : Outcome σ Delivery :=
  let f := { f with callbacks := f.callbacks + 1 }
  match f.phase, f.holdings with
  | .running, some h => f.run h f.engineFrame.toNat input buffer
  | .stopped, _ => ⟨f, ⟨false, passThrough input buffer.length⟩, []⟩
  | _, _ => ⟨f, ⟨true, passThrough input buffer.length⟩, []⟩

theorem length_quantum (f : Framer σ) (input buffer : List Sample) :
    (f.quantum input buffer).answer.block.length = buffer.length := by
  unfold quantum
  dsimp only
  split
  · unfold run
    split
    · simp [fail]
    · exact length_deliver _ _ _ _
  · simp
  · simp

instance : AudioCallback (Framer σ) where
  call f input buffer :=
    let outcome := f.quantum input buffer
    (outcome.answer, outcome.framer)
  length_call f input buffer := f.length_quantum input buffer

end Framer

end AudioFraming
