import AudioFraming.Engine.Identity
import AudioFraming.Link

/-!
# Audio worklets

In a browser one thread runs the message port and the audio callback, so a
worklet holds both sides of its link.
-/

namespace AudioFraming

structure Worklet where
  link : Link IdentityEngine

namespace Worklet

/-- A worklet for a given render quantum, with what starting it logs. -/
def new (quantum : UInt32) : Except SetupError (Worklet × List LogRecord) :=
  let engine := IdentityEngine.ofFrameSize 480
  let outcome := Framer.started { quantum := quantum.toUInt64, frame := engine.frameSize } engine
  match outcome.result with
  | .ok () => .ok (⟨Link.ofFramer outcome.framer⟩, outcome.logs)
  | .error e => .error e

def process (w : Worklet) (input buffer : List Sample) : Delivery × Worklet :=
  let (delivery, link) := w.link.process input buffer
  (delivery, ⟨link⟩)

/-- Handles a text from the message port. -/
def post (w : Worklet) (text : String) : Except Json.Fault Worklet :=
  match w.link.post text with
  | .ok (_, link) => .ok ⟨link⟩
  | .error fault => .error fault

def send (w : Worklet) (c : Command) : Worklet := ⟨(w.link.send c).2⟩

/-- The events that wait, as texts for the message port, and what polling logs. -/
def poll (w : Worklet) : List String × List LogRecord × Worklet :=
  let (found, link) := w.link.poll
  (found.events.map Event.toText, found.logs, ⟨link⟩)

def vad (w : Worklet) : Sample := w.link.readback.vad

def phase (w : Worklet) : Phase := w.link.readback.phase

def latency (w : Worklet) : UInt32 :=
  w.link.audio.elim 0 fun f => f.sizing.latency.toUInt32

end Worklet

end AudioFraming
