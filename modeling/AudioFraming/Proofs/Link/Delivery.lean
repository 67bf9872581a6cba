import AudioFraming.Engine.Identity
import AudioFraming.Proofs.Link.Refinement

/-!
# What a poll finds

Between two polls every event that goes through a link ends up in the queue or among the
dropped ones: the queue holds the first of them, in order, and the counter the number of
the others (`Queued`). One event keeps this wherever it falls, so it does not matter that
a single callback can fill the queue halfway through. A poll empties both, and the next
one starts from nothing. `LinkCall.batches` reads off a session what its framer emits
between two polls, without looking at any queue, and `polls_eq_batches` says what the
polls return and log of it.
-/

namespace AudioFraming

/-- A start is logged where it happens, and every other event when it is polled. -/
theorem Event.logRecord?_eq_none_iff (e : Event) :
    e.logRecord? = none ↔ ∃ quantum frame latency, e = .started quantum frame latency := by
  cases e <;> simp [logRecord?]

/-- The event of the start, if the framer runs. -/
def Framer.announcement {σ : Type} (f : Framer σ) : List Event :=
  if f.phase.isRunning then
    [.started f.sizing.quantum.toNat f.sizing.frame.toNat f.sizing.latency.toNat]
  else []

namespace Link

variable {σ : Type}

/-- The poll that some events call for: the first of them, as many as the queue holds, with their
log records, and a record of how many are missing. -/
def Poll.ofEmitted (events : List Event) : Poll where
  events := events.take eventQueueLimit
  logs := (events.take eventQueueLimit).filterMap Event.logRecord? ++
    if eventQueueLimit < events.length then
      [droppedRecord (events.length - eventQueueLimit)]
    else []

/-! ## The queue and the counter -/

/-- Some events have gone through a link since its last poll. -/
structure Queued (emitted : List Event) (l : Link σ) : Prop where
  held : l.controlHeld = true
  events : l.events = emitted.take eventQueueLimit
  dropped : l.dropped = emitted.length - eventQueueLimit

namespace Queued

variable {emitted : List Event} {l : Link σ}

theorem ofFramer (f : Framer σ) : Queued f.announcement (ofFramer f) := by
  have hlength : f.announcement.length ≤ eventQueueLimit := by
    unfold Framer.announcement
    split
    · exact Nat.le_of_ble_eq_true rfl
    · exact Nat.zero_le _
  constructor
  · rfl
  · exact (List.take_of_length_le hlength).symm
  · exact (Nat.sub_eq_zero_of_le hlength).symm

/-- The queue is full exactly if something could be missing. -/
theorem length_lt_iff (h : Queued emitted l) :
    l.events.length < eventQueueLimit ↔ emitted.length < eventQueueLimit := by
  rw [h.events, List.length_take]
  omega

theorem emit (h : Queued emitted l) (e : Event) : Queued (emitted ++ [e]) (l.emit e) := by
  unfold Link.emit
  by_cases hroom : emitted.length < eventQueueLimit
  · rw [if_pos ⟨h.held, h.length_lt_iff.mpr hroom⟩]
    have hlength : (emitted ++ [e]).length ≤ eventQueueLimit := by
      rw [List.length_append]
      exact hroom
    constructor
    · exact h.held
    · change l.events ++ [e] = _
      rw [h.events, List.take_of_length_le hroom.le, List.take_of_length_le hlength]
    · change l.dropped = _
      rw [h.dropped]
      omega
  · rw [if_neg fun hc => hroom (h.length_lt_iff.mp hc.2)]
    have hfull : eventQueueLimit ≤ emitted.length := Nat.le_of_not_lt hroom
    constructor
    · exact h.held
    · change l.events = _
      rw [h.events, List.take_append_of_le_length hfull]
    · change l.dropped + 1 = _
      rw [h.dropped, List.length_append, List.length_singleton]
      omega

theorem emitAll (events : List Event) {emitted : List Event} {l : Link σ} (h : Queued emitted l) :
    Queued (emitted ++ events) (l.emitAll events) := by
  induction events generalizing emitted l with
  | nil => rwa [List.append_nil]
  | cons e rest ih =>
    rw [List.append_cons, emitAll_cons]
    exact ih (h.emit e)

theorem poll_eq (h : Queued emitted l) : l.poll.1 = Poll.ofEmitted emitted := by
  have hwarning : 0 < l.dropped ↔ eventQueueLimit < emitted.length := by
    rw [h.dropped]
    exact Nat.sub_pos_iff_lt
  simp only [poll, Poll.ofEmitted, hwarning, ← h.events, ← h.dropped]

theorem poll (h : Queued emitted l) : Queued [] l.poll.2 := ⟨h.held, rfl, rfl⟩

theorem send (h : Queued emitted l) (c : Command) : Queued emitted (l.send c).2 := by
  unfold Link.send
  split
  · exact ⟨h.held, h.events, h.dropped⟩
  · exact h

end Queued

end Link

/-! ## Sessions -/

namespace LinkCall

/-- What a call has the framer do for the control side. A call around the link is none of its
business. -/
def relayed (waiting : List Command) : LinkCall → List FramerCall
  | .direct _ => []
  | c => (c.turn waiting).calls

variable {σ : Type} [Engine σ]

/-- The events that a call sends back, if there is a framer. -/
def emitted (framer : Option (Framer σ)) (waiting : List Command) (c : LinkCall) : List Event :=
  match framer with
  | none => []
  | some f => f.eventsDuring (c.relayed waiting)

theorem emitted_of_relayed {waiting : List Command} {c : LinkCall} (h : c.relayed waiting = [])
    (framer : Option (Framer σ)) : c.emitted framer waiting = [] := by
  unfold emitted
  rw [h]
  split <;> rfl

/-- The events sent back up to each poll of a session, from the poll before on. Some may have been
sent back already. -/
def batches (framer : Option (Framer σ)) (waiting : List Command) (earlier : List Event) :
    List LinkCall → List (List Event)
  | [] => []
  | .poll :: rest => earlier :: batches framer waiting [] rest
  | .dropControl :: _ => []
  | .dropAudio :: rest => batches none [] earlier rest
  | c :: rest =>
    batches (framer.map fun f => f.replay (c.turn waiting).calls) (c.waitingAfter true waiting)
      (earlier ++ c.emitted framer waiting) rest

/-- Commands do nothing without a framer. -/
theorem batches_none (calls : List LinkCall) (waiting left : List Command)
    (earlier : List Event) :
    batches (none : Option (Framer σ)) waiting earlier calls =
      batches (none : Option (Framer σ)) left earlier calls := by
  induction calls generalizing waiting left earlier with
  | nil => rfl
  | cons c rest ih =>
    cases c with
    | poll => exact congrArg _ (ih waiting left [])
    | dropControl => rfl
    | dropAudio => rfl
    | _ => exact ih _ _ _

end LinkCall

namespace Link

variable {σ : Type} [Engine σ]

/-- What a call polls. -/
def polled? (l : Link σ) : LinkCall → Option Poll
  | .poll => if l.controlHeld then some l.poll.1 else none
  | _ => none

/-- What the polls of a session return and log. -/
def polls (l : Link σ) : List LinkCall → List Poll
  | [] => []
  | c :: rest => (l.polled? c).toList ++ (l.after c).polls rest

namespace Queued

variable {earlier : List Event} {l : Link σ}

theorem process (h : Queued earlier l) (input buffer : List Sample) :
    Queued (earlier ++ (LinkCall.process input buffer).emitted l.audio l.commands)
      (l.process input buffer).2 := by
  cases haudio : l.audio with
  | none =>
    rw [process_of_none haudio, LinkCall.emitted, List.append_nil]
    exact ⟨h.held, h.events, h.dropped⟩
  | some f =>
    let calls := l.waiting ++ [.quantum input buffer]
    let m : Link σ := { l with audio := some (f.replay calls), commands := [] }
    have hstart : Queued earlier m := ⟨h.held, h.events, h.dropped⟩
    have hsent := hstart.emitAll (f.eventsDuring calls)
    rw [process_eq haudio]
    -- The readback changes after that, which the queue does not see.
    exact ⟨hsent.held, hsent.events, hsent.dropped⟩

theorem applyCommands (h : Queued earlier l) :
    Queued (earlier ++ LinkCall.drain.emitted l.audio l.commands) l.applyCommands := by
  cases haudio : l.audio with
  | none =>
    rw [applyCommands_of_none haudio, LinkCall.emitted, List.append_nil]
    exact ⟨h.held, h.events, h.dropped⟩
  | some f =>
    let m : Link σ := { l with audio := some (f.replay l.waiting), commands := [] }
    have hstart : Queued earlier m := ⟨h.held, h.events, h.dropped⟩
    have hcalls : LinkCall.drain.relayed l.commands = l.waiting := List.append_nil _
    rw [applyCommands_eq haudio, LinkCall.emitted, hcalls]
    exact hstart.emitAll (f.eventsDuring l.waiting)

/-- Only a poll takes events out of the queue, and only the framer puts any in. -/
theorem after (h : Queued earlier l) {c : LinkCall} (hpoll : c ≠ .poll)
    (hdrop : c ≠ .dropControl) :
    Queued (earlier ++ c.emitted l.audio l.commands) (l.after c) := by
  have idle {m : Link σ} (hrelayed : c.relayed l.commands = []) (hm : Queued earlier m) :
      Queued (earlier ++ c.emitted l.audio l.commands) m := by
    rwa [LinkCall.emitted_of_relayed hrelayed, List.append_nil]
  cases c with
  | process input buffer => exact h.process input buffer
  | drain => exact h.applyCommands
  | send c =>
    apply idle rfl
    rw [Link.after, if_pos h.held]
    exact h.send c
  | post text =>
    apply idle rfl
    rw [Link.after, if_pos h.held, post]
    cases Command.ofText text with
    | error fault => exact h
    | ok c => exact h.send c
  | readback => exact idle rfl h
  | direct call => exact idle rfl ⟨h.held, h.events, h.dropped⟩
  | dropAudio => exact idle rfl ⟨h.held, h.events, h.dropped⟩
  | poll => exact absurd rfl hpoll
  | dropControl => exact absurd rfl hdrop

end Queued

/-- A control side that has been dropped polls no more. -/
theorem polls_of_dropped (calls : List LinkCall) {l : Link σ} (h : l.controlHeld = false) :
    l.polls calls = [] := by
  induction calls generalizing l with
  | nil => rfl
  | cons c rest ih =>
    have hpolled : l.polled? c = none := by
      cases c with
      | poll => rw [polled?, h]; rfl
      | _ => rfl
    rw [polls, hpolled, ih (controlHeld_after_of_dropped h c)]
    rfl

/-- The framer and the commands that wait for it are what they are without a link. -/
theorem batches_after {l : Link σ} (hheld : l.controlHeld = true) {c : LinkCall}
    (hc : c ≠ .dropAudio) (earlier : List Event) (rest : List LinkCall) :
    LinkCall.batches (l.after c).audio (l.after c).commands earlier rest =
      LinkCall.batches (l.audio.map fun f => f.replay (c.turn l.commands).calls)
        (c.waitingAfter true l.commands) earlier rest := by
  cases haudio : l.audio with
  | none =>
    rw [audio_after_of_none haudio]
    exact LinkCall.batches_none ..
  | some f =>
    have hturn := takesTurn haudio hc
    rw [hturn.audio_eq, hturn.commands_eq, hheld]
    rfl

/-- Every poll finds the first of the events since the poll before. -/
theorem Queued.polls_eq (calls : List LinkCall) {earlier : List Event} {l : Link σ}
    (h : Queued earlier l) :
    l.polls calls =
      (LinkCall.batches l.audio l.commands earlier calls).map Poll.ofEmitted := by
  induction calls generalizing earlier l with
  | nil => rfl
  | cons c rest ih =>
    by_cases hpoll : c = .poll
    · subst hpoll
      have hpolled : l.polled? .poll = some (Poll.ofEmitted earlier) := by
        rw [polled?, if_pos h.held, h.poll_eq]
      have hafter : l.after .poll = l.poll.2 := if_pos h.held
      have hnext : Queued [] (l.after .poll) := hafter ▸ h.poll
      rw [polls, hpolled, ih hnext, hafter]
      rfl
    by_cases hcontrol : c = .dropControl
    · subst hcontrol
      exact polls_of_dropped rest rfl
    have hpolls : l.polls (c :: rest) = (l.after c).polls rest := by
      cases c with
      | poll => exact absurd rfl hpoll
      | _ => rfl
    have hnext := h.after hpoll hcontrol
    rw [hpolls, ih hnext]
    by_cases haudio : c = .dropAudio
    · subst haudio
      rw [LinkCall.emitted_of_relayed rfl, List.append_nil]
      rfl
    · rw [batches_after h.held haudio, LinkCall.batches]
      · exact hpoll
      · exact hcontrol
      · exact haudio

/-- The start and the first 255 of 266 empty pushes fit. -/
example :
    let f := (Framer.new ⟨48000, 3, 2, 2⟩ (IdentityEngine.ofMemory 2 8)).start.framer
    ((ofFramer f).polls (List.replicate 266 (.process [] []) ++ [.poll])).map
      (fun p => (p.events.length, p.logs.getLast?)) = [(256, some (droppedRecord 11))] := by
  decide +kernel

end Link

end AudioFraming
