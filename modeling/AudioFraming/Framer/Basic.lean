import AudioFraming.Engine.Basic
import AudioFraming.Event
import AudioFraming.SampleRing
import AudioFraming.Sizing

/-!
# Framers

A framer stands between a host, which calls with quanta, and an engine, which
works in frames. Between start and stop it holds two rings, two spans of the
engine's arena and an instance of the engine; `start` takes them all or nothing.
-/

namespace AudioFraming

/-- What a framer has borrowed from its engine: an instance and a span for each frame. -/
structure Lease where
  handle : Handle
  inputSpan : Span
  outputSpan : Span
deriving DecidableEq, Inhabited

structure Holdings where
  input : SampleRing
  output : SampleRing
  lease : Lease

structure Framer (σ : Type) where
  sizing : Sizing
  engine : σ
  phase : Phase := .created
  holdings : Option Holdings := none
  /-- Callbacks of silence left before output begins. -/
  warmupLeft : Nat := 0
  callbacks : Nat := 0
  /-- Frames that have gone through the engine. -/
  frames : Nat := 0
  /-- The engine's answer for the last of them. -/
  vad : Sample := .zero

/-- What a call on a framer leads to. Events are in the order of their emission. -/
structure Outcome (σ α : Type) where
  framer : Framer σ
  answer : α
  events : List Event

/-- What an attempt to start leads to. -/
structure StartOutcome (σ : Type) where
  framer : Framer σ
  result : Except SetupError Unit
  logs : List LogRecord

/-- Two spans of one length, or none. Where the program ends, the first one is not given back. -/
def Arena.allocTwo (a : Arena) (length : Nat) : Except SetupError (Span × Span) × Arena :=
  match a.alloc length with
  | .error e => (.error e, a)
  | .ok (first, b) =>
    match b.alloc length with
    | .error (.aborted cause) => (.error (.aborted cause), b)
    | .error e => (.error e, b.discard first)
    | .ok (second, c) => (.ok (first, second), c)

namespace Lease

variable {σ : Type} [Engine σ]

/-- Borrows two spans and an instance, or nothing. -/
def take (engine : σ) (frame : Nat) : Except SetupError Lease × σ :=
  match (Engine.arena engine).allocTwo frame with
  | (.error e, arena) => (.error e, Engine.withArena engine arena)
  | (.ok (inputSpan, outputSpan), arena) =>
    match Engine.create (Engine.withArena engine arena) with
    | (.ok handle, engine) => (.ok ⟨handle, inputSpan, outputSpan⟩, engine)
    | (.error e, engine) =>
      (.error (.engine e), Engine.withArena engine
        (((Engine.arena engine).discard inputSpan).discard outputSpan))

/-- Gives everything back. -/
def giveBack (lease : Lease) (engine : σ) : σ :=
  let engine := Engine.destroy engine lease.handle
  Engine.withArena engine
    (((Engine.arena engine).discard lease.inputSpan).discard lease.outputSpan)

end Lease

namespace Framer

variable {σ : Type} [Engine σ]

/-- A framer that holds nothing yet. -/
def new (sizing : Sizing) (engine : σ) : Framer σ := { sizing := sizing, engine := engine }

/-- The engine's frame size at this moment. -/
def engineFrame (f : Framer σ) : UInt64 := Engine.frameSize f.engine

def startRecord (f : Framer σ) : LogRecord :=
  let name := Engine.name f.engine
  let quantum := f.sizing.quantum.toNat
  let frame := f.sizing.frame.toNat
  let capacity := f.sizing.ringCapacity.toNat
  let latency := f.sizing.latency.toNat
  ⟨.info, s!"frame processor started ({name}): quantum {quantum}, frame {frame}, " ++
    s!"ring {capacity} samples, latency {latency} samples"⟩

/-- Takes all that running needs. If anything is refused, the framer stays as it was created. -/
def start (f : Framer σ) : StartOutcome σ :=
  if f.phase ≠ .created then ⟨f, .error (.invalidState "start" f.phase.name), []⟩
  else
    match f.sizing.check f.engineFrame with
    | .error e => ⟨f, .error e, []⟩
    | .ok () =>
      if h : 0 < f.sizing.ringCapacity.toNat then
        match Lease.take f.engine f.engineFrame.toNat with
        | (.error e, engine) => ⟨{ f with engine := engine }, .error e, []⟩
        | (.ok lease, engine) =>
          let ring := SampleRing.ofCapacity f.sizing.ringCapacity.toNat h
          let running : Framer σ := { f with
            engine := engine
            phase := .running
            holdings := some ⟨ring, ring, lease⟩
            warmupLeft := f.sizing.warmupQuanta.toNat }
          ⟨running, .ok (), [running.startRecord]⟩
      else ⟨f, .error (.zeroSize "ring buffer capacity"), []⟩

/-- A framer that has just started. -/
def started (sizing : Sizing) (engine : σ) : StartOutcome σ := (new sizing engine).start

/-- Gives back whatever is held. -/
def release (f : Framer σ) : Framer σ :=
  match f.holdings with
  | none => f
  | some h => { f with engine := h.lease.giveBack f.engine, holdings := none }

/-- The engine that remains when the framer is dropped. -/
def dispose (f : Framer σ) : σ := f.release.engine

/-- Applies a command and answers whether it changed the phase. -/
def apply (f : Framer σ) (c : Command) : Outcome σ Bool :=
  match f.phase.after c with
  | none => ⟨f, false, []⟩
  | some phase =>
    let f := if phase = .stopped then f.release else f
    ⟨{ f with phase := phase }, true, [.phaseChanged phase]⟩

/-- Stops without telling anyone. -/
def stop (f : Framer σ) : Framer σ := (f.apply .stop).framer

/-- Samples waiting in the input ring and in the output ring. -/
def buffered (f : Framer σ) : Option (Nat × Nat) :=
  f.holdings.map fun h => (h.input.available, h.output.available)

def tallies (f : Framer σ) : Option (RingTally × RingTally) :=
  f.holdings.map fun h => (h.input.tally, h.output.tally)

end Framer

end AudioFraming
