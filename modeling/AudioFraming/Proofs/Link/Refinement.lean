import AudioFraming.Proofs.Link.Session

/-!
# A link as a framer called directly

A session over a link does to the framer what a plain session does that has a turn for
every call: a callback or a drain first applies the commands sent since the one before,
in the order they were sent, a call around the link is made as it is, and everything
else leaves the framer alone. `LinkCall.turns` reads these turns off the session without
looking at any queue, and `watch_eq_serve` finds the same deliveries and the same framer
after every single call.
-/

namespace AudioFraming

/-- What a call on a link comes down to for the framer: commands, and then a call. -/
structure Turn where
  commands : List Command := []
  call : Option FramerCall := none

/-- The calls of a turn on the framer. -/
def Turn.calls (t : Turn) : List FramerCall := t.commands.map .command ++ t.call.toList

namespace LinkCall

/-- The command that a call of the control side asks for. A text that is no message asks for
none. -/
def command? : LinkCall → Option Command
  | .send c => some c
  | .post text => (Command.ofText text).toOption
  | _ => none

/-- The control side is held after a call if it was before, unless it is dropped. -/
def holds (held : Bool) : LinkCall → Bool
  | .dropControl => false
  | _ => held

/-- The command that a call sends. -/
def sends (held : Bool) (c : LinkCall) : List Command :=
  if held then c.command?.toList else []

/-- The turn that a call comes down to while commands are waiting. -/
def turn (waiting : List Command) : LinkCall → Turn
  | .process input buffer => ⟨waiting, some (.quantum input buffer)⟩
  | .drain => ⟨waiting, none⟩
  | .direct call => ⟨[], some call⟩
  | _ => {}

/-- The commands that wait after a call. -/
def waitingAfter (held : Bool) (waiting : List Command) : LinkCall → List Command
  | .process .. => []
  | .drain => []
  | c => waiting ++ c.sends held

/-- The commands of a session while there is an audio side, in the order they are sent. -/
def sent (held : Bool) : List LinkCall → List Command
  | [] => []
  | .dropAudio :: _ => []
  | c :: rest => c.sends held ++ sent (c.holds held) rest

/-- The turns of a session, one for every call until the audio side is dropped, and the commands
that no turn has taken. -/
def turns (held : Bool) (waiting : List Command) : List LinkCall → List Turn × List Command
  | [] => ([], waiting)
  | .dropAudio :: _ => ([], waiting)
  | c :: rest =>
    let (later, left) := turns (c.holds held) (c.waitingAfter held waiting) rest
    (c.turn waiting :: later, left)

/-- A turn takes all the commands that wait, or it takes none and the one that the call sends
joins them. -/
theorem waiting_append_sends (held : Bool) (waiting : List Command) (c : LinkCall) :
    waiting ++ c.sends held = (c.turn waiting).commands ++ c.waitingAfter held waiting := by
  cases c <;> cases held <;> simp [sends, turn, waitingAfter, command?]

/-- Turns take the commands that are sent, each one once and in order. -/
theorem sent_eq_turns (calls : List LinkCall) (held : Bool) (waiting : List Command) :
    waiting ++ sent held calls =
      (turns held waiting calls).1.flatMap Turn.commands ++ (turns held waiting calls).2 := by
  induction calls generalizing held waiting with
  | nil => exact List.append_nil _
  | cons c rest ih =>
    cases c with
    | dropAudio => exact List.append_nil _
    | _ =>
      rw [sent, turns, ← List.append_assoc, waiting_append_sends, List.append_assoc, ih,
        List.flatMap_cons, List.append_assoc]
      · exact nofun
      · exact nofun

end LinkCall

namespace Framer

variable {σ : Type} [Engine σ]

/-- What a call delivers to the host. -/
def delivery? (f : Framer σ) : FramerCall → Option Delivery
  | .quantum input buffer => some (f.quantum input buffer).answer
  | _ => none

/-- What a session delivers to the host. -/
def deliveries (f : Framer σ) : List FramerCall → List Delivery
  | [] => []
  | c :: rest => (f.delivery? c).toList ++ (f.after c).deliveries rest

/-- What can be observed of a framer, turn by turn: deliveries, and the framer itself. -/
def serve (f : Framer σ) : List Turn → List (List Delivery × Framer σ)
  | [] => []
  | t :: rest => (f.deliveries t.calls, f.replay t.calls) :: (f.replay t.calls).serve rest

/-- Commands deliver nothing. -/
theorem deliveries_append_commands (commands : List Command) (f : Framer σ)
    (calls : List FramerCall) :
    f.deliveries (commands.map .command ++ calls) =
      (f.replay (commands.map .command)).deliveries calls := by
  induction commands generalizing f with
  | nil => rfl
  | cons c rest ih => exact ih _

end Framer

namespace Link

variable {σ : Type} [Engine σ]

/-- What a call on a link delivers to the host. -/
def deliveries (l : Link σ) : LinkCall → List Delivery
  | .process input buffer => [(l.process input buffer).1]
  | .direct c => (l.audio.bind fun f => f.delivery? c).toList
  | _ => []

/-- What can be observed of the framer behind a link, call by call, as long as there is one:
deliveries, and the framer itself. -/
def watch (l : Link σ) : List LinkCall → List (List Delivery × Framer σ)
  | [] => []
  | c :: rest =>
    ((l.after c).audio.map fun g => (l.deliveries c, g)).toList ++ (l.after c).watch rest

/-- Without an audio side there is nothing to observe, now or later. -/
theorem watch_of_none (calls : List LinkCall) {l : Link σ} (h : l.audio = none) :
    l.watch calls = [] := by
  induction calls generalizing l with
  | nil => rfl
  | cons c rest ih =>
    have hafter := audio_after_of_none h c
    rw [watch, hafter, ih hafter]
    rfl

theorem watch_cons {l : Link σ} {c : LinkCall} {g : Framer σ} (h : (l.after c).audio = some g)
    (rest : List LinkCall) :
    l.watch (c :: rest) = (l.deliveries c, g) :: (l.after c).watch rest := by
  rw [watch, h]
  rfl

/-- A call on a link is its turn on the framer. -/
structure TakesTurn (l : Link σ) (f : Framer σ) (c : LinkCall) : Prop where
  audio_eq : (l.after c).audio = some (f.replay (c.turn l.commands).calls)
  controlHeld_eq : (l.after c).controlHeld = c.holds l.controlHeld
  commands_eq : (l.after c).commands = c.waitingAfter l.controlHeld l.commands
  deliveries_eq : l.deliveries c = f.deliveries (c.turn l.commands).calls

section step

variable {l : Link σ} {f : Framer σ}

theorem takesTurn_process (h : l.audio = some f) (input buffer : List Sample) :
    l.TakesTurn f (.process input buffer) := by
  have hlink := process_eq h input buffer
  have hanswer : (l.process input buffer).1 =
      ((f.replay l.waiting).quantum input buffer).answer := congrArg Prod.fst hlink
  constructor
  · simp [after, hlink, LinkCall.turn, Turn.calls, waiting]
  · simp [after, hlink, LinkCall.holds]
  · simp [after, hlink, LinkCall.waitingAfter]
  · rw [Turn.calls, LinkCall.turn, f.deliveries_append_commands, deliveries, hanswer]
    rfl

theorem takesTurn_drain (h : l.audio = some f) : l.TakesTurn f .drain := by
  constructor
  · simp [after, applyCommands_eq h, LinkCall.turn, Turn.calls, waiting]
  · simp [after, applyCommands_eq h, LinkCall.holds]
  · simp [after, applyCommands_eq h, LinkCall.waitingAfter]
  · rw [Turn.calls, LinkCall.turn, f.deliveries_append_commands]
    rfl

/-- The control side leaves the framer alone, and a command that it sends joins those that wait. -/
theorem takesTurn_of_control (h : l.audio = some f) {c : LinkCall}
    (hc : (∃ command, c = .send command) ∨ (∃ text, c = .post text) ∨ c = .poll ∨
      c = .readback) : l.TakesTurn f c := by
  have hafter : (l.after c).audio = some f ∧ (l.after c).controlHeld = l.controlHeld ∧
      (l.after c).commands = l.commands ++ c.sends l.controlHeld := by
    cases hheld : l.controlHeld with
    | false =>
      rcases hc with ⟨command, rfl⟩ | ⟨text, rfl⟩ | rfl | rfl <;>
        simp [after, hheld, h, LinkCall.sends]
    | true =>
      rcases hc with ⟨command, rfl⟩ | ⟨text, rfl⟩ | rfl | rfl
      · simp [after, send, hheld, h, LinkCall.sends, LinkCall.command?]
      · simp only [after, post, send, hheld, h, LinkCall.sends, LinkCall.command?, if_true,
          Option.isSome_some]
        cases Command.ofText text <;> simp [Except.toOption, h, hheld]
      · simp [after, poll, hheld, h, LinkCall.sends, LinkCall.command?]
      · simp [after, hheld, h, LinkCall.sends, LinkCall.command?]
  obtain ⟨haudio, hheld, hcommands⟩ := hafter
  rcases hc with ⟨command, rfl⟩ | ⟨text, rfl⟩ | rfl | rfl <;>
    exact ⟨haudio, hheld, hcommands, rfl⟩

/-- Every call on a link is its turn on the framer, unless it drops it. -/
theorem takesTurn (h : l.audio = some f) {c : LinkCall} (hc : c ≠ .dropAudio) :
    l.TakesTurn f c := by
  cases c with
  | process input buffer => exact takesTurn_process h input buffer
  | drain => exact takesTurn_drain h
  | direct call =>
    constructor
    · simp [after, h, LinkCall.turn, Turn.calls, Framer.replay]
    · rfl
    · simp [after, LinkCall.waitingAfter, LinkCall.sends, LinkCall.command?]
    · simp [deliveries, h, Framer.deliveries, LinkCall.turn, Turn.calls]
  | dropControl =>
    constructor
    · exact h
    · rfl
    · simp [after, dropControl, LinkCall.waitingAfter, LinkCall.sends, LinkCall.command?]
    · rfl
  | send c => exact takesTurn_of_control h (.inl ⟨c, rfl⟩)
  | post text => exact takesTurn_of_control h (.inr (.inl ⟨text, rfl⟩))
  | poll => exact takesTurn_of_control h (.inr (.inr (.inl rfl)))
  | readback => exact takesTurn_of_control h (.inr (.inr (.inr rfl)))
  | dropAudio => exact absurd rfl hc

end step

/-- The framer behind a link goes through the turns of the session. -/
theorem watch_eq_serve (calls : List LinkCall) {l : Link σ} {f : Framer σ}
    (h : l.audio = some f) :
    l.watch calls = f.serve (LinkCall.turns l.controlHeld l.commands calls).1 := by
  induction calls generalizing l f with
  | nil => rfl
  | cons c rest ih =>
    by_cases hc : c = .dropAudio
    · subst hc
      rw [watch, watch_of_none rest (l := l.after .dropAudio) rfl]
      rfl
    · have hturn := takesTurn h hc
      rw [watch_cons hturn.audio_eq, ih hturn.audio_eq, hturn.controlHeld_eq, hturn.commands_eq,
        hturn.deliveries_eq, LinkCall.turns]
      · rfl
      · exact hc

/-- A link makes no difference to its framer. Whatever the two sides do and in whatever order,
after every call until the audio side is dropped the host has been given the same blocks and the
framer is the same as if each turn's commands had been applied to the framer itself, and then the
turn's call. The commands sent are those of the turns, in order, and those that no callback or
drain came after. -/
theorem watch_refines_direct (f : Framer σ) (calls : List LinkCall) :
    let session := LinkCall.turns true [] calls
    (ofFramer f).watch calls = f.serve session.1 ∧
      LinkCall.sent true calls = session.1.flatMap Turn.commands ++ session.2 := by
  constructor
  · exact watch_eq_serve calls rfl
  · exact LinkCall.sent_eq_turns calls true []

end Link

end AudioFraming
