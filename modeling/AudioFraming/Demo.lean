import AudioFraming.Decimal
import AudioFraming.Engine.Identity
import AudioFraming.Link

/-!
# The demonstration run

Two seconds of a noisy tone go through a link, quantum by quantum, with a pause
of a quarter second in the middle. The report tells how the link fared and
compares the energy that came out with the energy that went in.
-/

namespace AudioFraming

/-- What a program prints, and its exit code. -/
structure Report where
  code : UInt8 := 0
  out : List String := []
  err : List String := []
deriving Inhabited

namespace Demo

def seconds : Nat := 2

/-- The next seed of the noise. -/
def nextSeed (seed : UInt32) : UInt32 := seed * 1664525 + 1013904223

/-- White noise from a seed, between -1 and 1. -/
def noise (seed : UInt32) : Float32 := (seed >>> 8).toFloat32 / 16777216 * 2 - 1

/-- A tone of 440 Hz at a given sample. -/
def tone (sampleRate : Float32) (n : Nat) : Float32 :=
  (Float32.ofBits 0x40c90fdb * 440 * n.toUInt32.toFloat32 / sampleRate).sin

/-- `count` samples of the noisy tone from sample `n` on. -/
def signal (sampleRate : Float32) : Nat → Nat → UInt32 → List Sample
  | 0, _, _ => []
  | count + 1, n, seed =>
    let seed := nextSeed seed
    .ofFloat32 (0.3 * tone sampleRate n + 0.05 * noise seed) ::
      signal sampleRate count (n + 1) seed

def energy (block : List Sample) : Float :=
  block.foldl (fun sum s => sum + s.toFloat32.toFloat * s.toFloat32.toFloat) 0

/-- The state of a run, with the lines printed so far, last first. -/
structure Run where
  link : Link IdentityEngine
  buffer : List Sample
  energyIn : Float := 0
  energyOut : Float := 0
  lines : List String := []

def statusLine (index : Nat) (r : Readback) : String :=
  let vad := Decimal.fixed 2 r.vad.toFloat32.toFloat
  s!"--- quantum {index}: {r.phase.name} | frames {r.frames} | vad {vad}"

/-- Drives the link through the blocks from a given index on, with a command before some. -/
def drive (commandAt : Nat → Option Command) : List (List Sample) → Nat → Run → Run
  | [], _, run => run
  | input :: rest, index, run =>
    let link := (commandAt index).elim run.link fun c => (run.link.send c).2
    let (delivery, link) := link.process input run.buffer
    let run := { run with link := link, buffer := delivery.block }
    if delivery.keepGoing then
      let line := if index % 100 = 0 then [statusLine index link.readback] else []
      drive commandAt rest (index + 1) { run with
        energyIn := run.energyIn + energy input
        energyOut := run.energyOut + energy delivery.block
        lines := line ++ run.lines }
    else run

def epsilon : Float := Float.ofBits 0x3cb0000000000000

def lastLine (r : Readback) (ratio : Float) : String :=
  let ratio := Decimal.fixed 3 ratio
  s!"Done: {r.callbacks} callbacks, {r.frames} frames, {r.overflows} overflows, " ++
    s!"{r.underflows} underflows, energy out/in {ratio}"

def firstLine (quanta : Nat) (s : Sizing) : String :=
  let quantum := s.quantum.toNat
  let latency := s.latency.toNat
  s!"Running {seconds}s through {quanta} quanta of {quantum} samples (latency {latency} samples)…"

/-- The run of a framer that has started. -/
def play (f : Framer IdentityEngine) : List String :=
  let quantum := f.sizing.quantum.toNat
  let total := f.sizing.sampleRate.toNat * seconds
  let quanta := total / quantum
  let pauseAt := quanta / 2
  let resumeAt := pauseAt + quanta / 8
  let commandAt (index : Nat) : Option Command :=
    if index = pauseAt then some .pause else if index = resumeAt then some .resume else none
  let input := blocks quantum
    (signal f.sizing.sampleRate.toFloat32 (quanta * quantum) 0 0x12345678)
  let run := drive commandAt input 0
    { link := Link.ofFramer f, buffer := Sample.silence quantum }
  let (_, link) := ((run.link.send .stop).2).process (input.headD []) run.buffer
  let (found, link) := link.poll
  firstLine quanta f.sizing :: run.lines.reverse ++ found.events.map Event.toText ++
    [lastLine link.readback (run.energyOut / max run.energyIn epsilon)]

def report : Report :=
  let engine := IdentityEngine.ofFrameSize 480
  let outcome := Framer.started { frame := engine.frameSize } engine
  match outcome.result with
  | .ok () => { out := play outcome.framer }
  | .error e => { code := 1, err := [s!"Failed to start processor: {e.message}"] }

end Demo

end AudioFraming
