import AudioFraming.Error
import AudioFraming.Json.Value
import AudioFraming.Phase

/-!
# Events

What a framer reports while it runs. Events are for watching: they cross to the
control side as JSON objects or end up in the log, and nothing ever reads one
back as a command.
-/

namespace AudioFraming

inductive LogLevel where
  | error
  | warn
  | info
  | debug
deriving DecidableEq, Inhabited

structure LogRecord where
  level : LogLevel
  message : String
deriving DecidableEq, Inhabited

/-- One of the two rings of a framer. -/
inductive Side where
  | input
  | output
deriving DecidableEq, Inhabited

namespace Side

def name : Side → String
  | input => "input"
  | output => "output"

def title : Side → String
  | input => "Input"
  | output => "Output"

end Side

inductive Event where
  | started (quantum frame latency : Nat)
  | phaseChanged (phase : Phase)
  /-- A push evicted unread samples. -/
  | overflow (side : Side) (evicted : Nat)
  /-- A pull found too few samples. -/
  | underflow (side : Side)
  | emptyPush (side : Side)
  /-- The engine failed, and audio passes through from now on. -/
  | engineFailure (error : EngineError)
  /-- The host asked for what the sizes do not allow, and audio passes through from now on. -/
  | misconfigured (error : SetupError)
deriving DecidableEq, Inhabited

namespace Event

def kind : Event → String
  | started .. => "started"
  | phaseChanged _ => "state_changed"
  | overflow .. => "overflow"
  | underflow _ => "underflow"
  | emptyPush _ => "empty_push"
  | engineFailure _ => "engine_failure"
  | misconfigured _ => "misconfigured"

/-- The members of the JSON object after the kind. -/
def details : Event → List (String × Json)
  | started quantum frame latency =>
    [("quantum_size", .ofNat quantum), ("frame_size", .ofNat frame),
      ("latency_samples", .ofNat latency)]
  | phaseChanged phase => [("state", .string phase.name)]
  | overflow side evicted => [("buffer", .string side.name), ("evicted", .ofNat evicted)]
  | underflow side => [("buffer", .string side.name)]
  | emptyPush side => [("buffer", .string side.name)]
  | engineFailure e => [("error", .string e.message)]
  | misconfigured e => [("error", .string e.message)]

def toJson (e : Event) : Json := .object (("type", .string e.kind) :: e.details)

def toText (e : Event) : String := e.toJson.render

/-- The record for the log. A start is logged where it happens, so its event is not. -/
def logRecord? : Event → Option LogRecord
  | started .. => none
  | phaseChanged phase => some ⟨.debug, s!"frame processor {phase.name}"⟩
  | overflow side evicted =>
    some ⟨.warn, s!"{side.title} ring buffer overflow: evicted {evicted} samples"⟩
  | underflow side => some ⟨.warn, s!"{side.title} ring buffer underflow"⟩
  | emptyPush side => some ⟨.debug, s!"{side.title} ring buffer received an empty push"⟩
  | engineFailure e =>
    some ⟨.error, s!"suppression engine failed, passing audio through: {e.message}"⟩
  | misconfigured e =>
    some ⟨.error, s!"frame processor misconfigured, passing audio through: {e.message}"⟩

/-- The event of a failure. -/
def ofFailure : SetupError → Event
  | .engine e => engineFailure e
  | e => misconfigured e

end Event

end AudioFraming
