import AudioFraming.Engine.Identity
import AudioFraming.Link

/-!
# The C interface

A C program holds two pointers, one for each side of a link around an identity
engine, and passes one of them, or NULL, to every call. Calls on NULL change
nothing and answer as if the framer were gone. Commands come as numbers or as
NUL-terminated JSON texts. A text that is no message is logged with the words of
the library that reads it, which a session is given (`NativeSession.complaint`).
-/

namespace AudioFraming

/-- Sizes as a C program gives them. The frame size is the engine's. -/
structure NativeSizing where
  sampleRate : UInt32 := 48000
  quantum : UInt32 := 128
  jitter : UInt32 := 3
deriving DecidableEq, Inhabited

inductive NativeCall where
  /-- Without sizes the usual ones are taken. The receiver is the place for the audio side's
  pointer. -/
  | create (sizing : Option NativeSizing) (receiver : Bool)
  | process (held : Bool) (input output : Option (List Sample))
  | send (held : Bool) (code : UInt32)
  | post (held : Bool) (message : Option (List UInt8))
  | poll (held : Bool)
  | readback (held : Bool)
  | destroyControl (held : Bool)
  | destroyProcessor (held : Bool)
deriving DecidableEq, Inhabited

inductive NativeAnswer where
  | nothing
  | truth (value : Bool)
  | count (value : Nat)
  | delivery (value : Delivery)
  | readback (value : Readback)
deriving DecidableEq, Inhabited

/-- The link behind the pointers of a program. A side that has been destroyed, or was never
created, has the pointer NULL. -/
structure NativeSession where
  link : Option (Link IdentityEngine) := none
  /-- How the reader of messages words what is wrong with a text that is none. -/
  complaint : String → String

structure NativeReply where
  session : NativeSession
  answer : NativeAnswer
  logs : List LogRecord := []

namespace NativeSizing

/-- The sizes for an engine. -/
def toSizing (s : NativeSizing) (frame : UInt64) : Sizing where
  sampleRate := s.sampleRate
  quantum := s.quantum.toUInt64
  frame := frame
  jitter := s.jitter.toUInt64

end NativeSizing

namespace NativeSession

/-- The engine of every link. -/
def engine : IdentityEngine := .ofFrameSize 480

/-- What a control side without a framer reads back. -/
def absent : Readback := { phase := .stopped }

/-- The link, if the pointer passed is that of its control side. -/
def control (s : NativeSession) (held : Bool) : Option (Link IdentityEngine) :=
  s.link.filter fun l => held && l.controlHeld

/-- The link, if the pointer passed is that of its audio side. -/
def audio (s : NativeSession) (held : Bool) : Option (Link IdentityEngine) :=
  s.link.filter fun l => held && l.audio.isSome

/-- The text of a C string. -/
def textOf? (message : List UInt8) : Option String :=
  String.fromUTF8? ⟨(message.takeWhile (· ≠ 0)).toArray⟩

def create (s : NativeSession) (sizing : NativeSizing) : NativeReply :=
  let outcome := Framer.started (sizing.toSizing engine.frameSize) engine
  match outcome.result with
  | .ok () =>
    ⟨{ s with link := some (Link.ofFramer outcome.framer) }, .truth true, outcome.logs⟩
  | .error e => ⟨s, .truth false, [⟨.error, s!"denoise_create: {e.message}"⟩]⟩

/-- Sends the command of a text. -/
def post (s : NativeSession) (l : Link IdentityEngine) (text : String) : NativeReply :=
  match l.post text with
  | .ok (sent, l) => { session := { s with link := some l }, answer := .truth sent }
  | .error _ =>
    ⟨s, .truth false, [⟨.error, s!"denoise_control_post_message: {s.complaint text}"⟩]⟩

def call (s : NativeSession) : NativeCall → NativeReply
  | .create sizing receiver =>
    if receiver then s.create (sizing.getD {}) else { session := s, answer := .truth false }
  | .process held input output =>
    match s.audio held, input, output with
    | some l, some input, some output =>
      let (delivery, l) := l.process input output
      { session := { s with link := some l }, answer := .delivery delivery }
    | _, _, output => { session := s, answer := .delivery ⟨false, output.getD []⟩ }
  | .send held code =>
    match s.control held, Command.ofCode? code with
    | some l, some c =>
      let (sent, l) := l.send c
      { session := { s with link := some l }, answer := .truth sent }
    | _, _ => { session := s, answer := .truth false }
  | .post held message =>
    match s.control held, message.bind textOf? with
    | some l, some text => s.post l text
    | _, _ => { session := s, answer := .truth false }
  | .poll held =>
    match s.control held with
    | some l =>
      let (found, l) := l.poll
      ⟨{ s with link := some l }, .count found.events.length, found.logs⟩
    | none => { session := s, answer := .count 0 }
  | .readback held =>
    { session := s, answer := .readback ((s.control held).elim absent Link.readback) }
  | .destroyControl held =>
    { session := (s.control held).elim s fun l => { s with link := some l.dropControl }
      answer := .nothing }
  | .destroyProcessor held =>
    { session := (s.audio held).elim s fun l => { s with link := some l.dropAudio }
      answer := .nothing }

end NativeSession

end AudioFraming
