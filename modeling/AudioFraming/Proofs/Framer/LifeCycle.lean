import AudioFraming.Proofs.Framer.Lapses
import AudioFraming.Proofs.Framer.Transcript

/-!
# The life cycle

A framer is created, runs, may pause and go on, and stops. One that fails is bypassed
before it stops. `Phase.Moves` lists these steps, and no call makes any other
(`moves_after`). A command and a callback tell of the step they make by an event, while a
start answers its caller, so whoever collects the events knows the phase at any time
(`phase_replay`).
-/

namespace AudioFraming

/-- The phase that an event announces. -/
def Event.phase? : Event → Option Phase
  | phaseChanged p => some p
  | _ => none

/-- Moving samples around announces nothing. -/
theorem phases_of_mild {events : List Event} (h : ∀ e ∈ events, e.Mild) :
    events.filterMap Event.phase? = [] := by
  refine List.filterMap_eq_nil_iff.mpr fun e he => ?_
  rcases h e he with rfl | ⟨side, n, rfl⟩ <;> rfl

namespace Phase

/-- The steps of a life cycle. -/
inductive Moves : Phase → Phase → Prop
  | stay (p : Phase) : Moves p p
  | start : Moves created running
  | pause : Moves running paused
  | resume : Moves paused running
  | bypass : Moves running bypassed
  | stop (p : Phase) : Moves p stopped

namespace Moves

variable {p q : Phase}

theorem of_after {c : Command} (h : p.after c = some q) : p.Moves q := by
  cases p <;> cases c <;> cases h <;> constructor

/-- Nothing leads back to the beginning. -/
theorem eq_created (h : p.Moves q) (hq : q = .created) : p = .created := by
  cases h <;> first | exact hq | cases hq

theorem eq_of_bypassed (h : p.Moves q) (hp : p = .bypassed) : q = .bypassed ∨ q = .stopped := by
  cases h <;> first | exact Or.inl hp | exact Or.inr rfl | cases hp

theorem eq_running (h : p.Moves q) (hq : q = .bypassed) (hne : p ≠ .bypassed) :
    p = .running := by
  cases h <;> first | rfl | exact absurd hq hne | cases hq

theorem eq_stopped (h : p.Moves q) (hp : p = .stopped) : q = .stopped := by
  cases h <;> first | exact hp | rfl | cases hp

end Moves

/-- The phase that a step enters, if it leaves the one before. -/
def entered (p q : Phase) : List Phase := if q = p then [] else [q]

theorem entered_self (p : Phase) : p.entered p = [] := if_pos rfl

theorem entered_of_ne {p q : Phase} (h : q ≠ p) : p.entered q = [q] := if_neg h

theorem getD_getLast?_entered (p q : Phase) : (p.entered q).getLast?.getD p = q := by
  unfold entered
  split_ifs with h
  · exact h.symm
  · rfl

end Phase

namespace Entry

/-- The phase that a call enters and tells of. A start tells of nothing. -/
def entered (r : Entry) : List Phase :=
  match r.call with
  | .start => []
  | _ => r.found.entered r.left

/-- Whether the call is a start that succeeds. -/
def begins (r : Entry) : Bool :=
  match r.reply.answer with
  | .started (.ok _) => true
  | _ => false

/-- What a single call does to the phase, and what it answers about that. -/
structure Lawful (r : Entry) : Prop where
  started : r.call = .start →
    (r.reply.answer = .started (.ok ()) ∧ r.found = .created ∧ r.left = .running) ∨
      (∃ e, r.reply.answer = .started (.error e)) ∧ r.left = r.found
  /-- There is no second start. -/
  refused : r.call = .start → r.found ≠ .created →
    r.reply.answer = .started (.error (.invalidState "start" r.found.name))
  /-- A command answers whether it has changed the phase. -/
  applied : ∀ c, r.call = .command c →
    r.left = (r.found.after c).getD r.found ∧
      ∃ changed, r.reply.answer = .applied changed ∧ (changed = true ↔ r.left ≠ r.found)
  delivered : ∀ input buffer, r.call = .quantum input buffer →
    (r.left = r.found ∨ r.found = .running ∧ r.left = .bypassed) ∧
      ∃ d, r.reply.answer = .delivered d ∧ (d.keepGoing = false ↔ r.found = .stopped)
  not_created : r.found ≠ .created → r.left ≠ .created
  bypassed_from : r.found ≠ .bypassed → r.left = .bypassed → r.found = .running
  bypassed_to : r.found = .bypassed → r.left = .bypassed ∨ r.left = .stopped
  stopped : r.found = .stopped → r.left = .stopped
  /-- Frames are only asked for while the framer runs. -/
  requests : ∀ handle output input,
    .process handle output input ∈ r.reply.requests → r.found = .running

/-- What a call settles for another one, at any time after it. -/
structure Binds (r later : Entry) : Prop where
  not_created : r.left ≠ .created → later.left ≠ .created
  stopped : r.left = .stopped → later.left = .stopped
  refused : r.left = .stopped → later.call = .start →
    later.reply.answer = .started (.error (.invalidState "start" "stopped"))
  keepGoing : ∀ d, r.reply.answer = .delivered d → d.keepGoing = false →
    ∀ d', later.reply.answer = .delivered d' → d'.keepGoing = false

end Entry

namespace Framer

variable {σ : Type} [Engine σ] {f : Framer σ}

/-! ## Steps -/

theorem phase_start (f : Framer σ) :
    f.start.result = .ok () ∧ f.phase = .created ∧ f.start.framer.phase = .running ∨
      (∃ e, f.start.result = .error e) ∧ f.start.framer.phase = f.phase := by
  by_cases hcreated : f.phase = .created
  · rcases f.start_eq with ⟨e, fault, hstart⟩ | ⟨e, h, left, logs, hstart⟩
    · rw [hstart]
      exact Or.inr ⟨⟨fault, rfl⟩, rfl⟩
    · rw [hstart]
      exact Or.inl ⟨rfl, hcreated, rfl⟩
  · rw [start_of_ne hcreated]
    exact Or.inr ⟨⟨_, rfl⟩, rfl⟩

/-- A command makes a step, tells of it and answers that it has, or it does nothing. -/
theorem phase_apply (f : Framer σ) (c : Command) :
    f.phase.after c = none ∧ f.apply c = ⟨f, false, []⟩ ∨
      f.phase.after c = some (f.apply c).framer.phase ∧ (f.apply c).answer = true ∧
        (f.apply c).events = [.phaseChanged (f.apply c).framer.phase] := by
  unfold apply
  cases hafter : f.phase.after c with
  | none => exact Or.inl ⟨rfl, rfl⟩
  | some q => exact Or.inr ⟨rfl, rfl, rfl⟩

/-- A callback stays in its phase and announces none, or it fails and tells of that. -/
theorem phase_quantum (f : Framer σ) (input buffer : List Sample) :
    (f.quantum input buffer).framer.phase = f.phase ∧
        (f.quantum input buffer).events.filterMap Event.phase? = [] ∨
      f.phase = .running ∧ (f.quantum input buffer).framer.phase = .bypassed ∧
        (f.quantum input buffer).events.filterMap Event.phase? = [.bypassed] := by
  cases f.quantum_case input buffer with
  | idle hruns heq =>
    rw [heq]
    exact Or.inl ⟨rfl, rfl⟩
  | fails h p e hphase hsome hadvance heq =>
    have hmild := (f.lapses_advance h f.engineFrame.toNat input).mild
    rw [hadvance] at hmild
    rw [heq]
    refine Or.inr ⟨hphase, rfl, ?_⟩
    dsimp only [fail]
    rw [List.filterMap_append, phases_of_mild hmild]
    cases e <;> rfl
  | delivers h p ring hphase hsome hadvance hframer hgo hhands =>
    have hmild := (f.lapses_advance h f.engineFrame.toNat input).mild
    rw [hadvance] at hmild
    have hnone := phases_of_mild hmild
    refine Or.inl ⟨by rw [hframer]; rfl, ?_⟩
    cases hhands with
    | warmup hleft hring hblock hevents => rw [hevents, hnone]
    | missed hleft hlt hcapacity hlist htally hblock hevents =>
      rw [hevents, List.filterMap_append, hnone]
      rfl
    | filled hleft hle hcapacity hlist htally hblock hevents => rw [hevents, hnone]

/-- A callback asks the host to stop exactly if the framer has stopped before. -/
theorem keepGoing_quantum (f : Framer σ) (input buffer : List Sample) :
    (f.quantum input buffer).answer.keepGoing = decide (f.phase ≠ .stopped) := by
  cases f.quantum_case input buffer with
  | idle hruns heq => rw [heq]
  | fails h p e hphase hsome hadvance heq =>
    rw [heq, hphase]
    rfl
  | delivers h p ring hphase hsome hadvance hframer hgo =>
    rw [hgo, hphase]
    rfl

theorem moves_after (f : Framer σ) (c : FramerCall) : f.phase.Moves (f.after c).phase := by
  have hcommand : ∀ c, f.phase.Moves (f.apply c).framer.phase := by
    intro c
    rcases f.phase_apply c with ⟨-, happly⟩ | ⟨hafter, -⟩
    · rw [happly]
      exact .stay _
    · exact .of_after hafter
  cases c with
  | start =>
    rcases f.phase_start with ⟨-, hcreated, hrunning⟩ | ⟨-, hsame⟩
    · rw [after, hcreated, hrunning]
      exact .start
    · rw [after, hsame]
      exact .stay _
  | command c => exact hcommand c
  | stop => exact hcommand .stop
  | quantum input buffer =>
    rcases f.phase_quantum input buffer with ⟨hsame, -⟩ | ⟨hrunning, hbypassed, -⟩
    · rw [after, hsame]
      exact .stay _
    · rw [after, hrunning, hbypassed]
      exact .bypass

theorem stopped_after (hphase : f.phase = .stopped) (c : FramerCall) :
    (f.after c).phase = .stopped :=
  (f.moves_after c).eq_stopped hphase

/-! ## Events -/

/-- Every step but a start is told of when it is made. -/
theorem phases_eventsOf (f : Framer σ) {c : FramerCall} (hc : c ≠ .stop) :
    (f.eventsOf c).filterMap Event.phase? = (f.entry c).entered := by
  cases c with
  | start => rfl
  | command c =>
    simp only [eventsOf, Entry.entered, entry, after]
    rcases f.phase_apply c with ⟨-, happly⟩ | ⟨hafter, -, hevents⟩
    · rw [happly, Phase.entered_self]
      rfl
    · rw [hevents, Phase.entered_of_ne (f.phase.after_ne_self _ c hafter)]
      rfl
  | stop => exact absurd rfl hc
  | quantum input buffer =>
    simp only [eventsOf, Entry.entered, entry, after]
    rcases f.phase_quantum input buffer with ⟨hsame, hnone⟩ | ⟨hrunning, hbypassed, hone⟩
    · rw [hnone, hsame, Phase.entered_self]
    · rw [hone, hrunning, hbypassed]
      rfl

theorem phases_eventsDuring (f : Framer σ) {calls : List FramerCall} (hcalls : .stop ∉ calls) :
    (f.eventsDuring calls).filterMap Event.phase? =
      (f.transcript calls).flatMap Entry.entered := by
  have hentry : ∀ r ∈ f.transcript calls, r.reply.events.filterMap Event.phase? = r.entered := by
    refine forall_transcript (P := fun _ => True) ?_ trivial
    intro g _ c hc
    exact ⟨g.phases_eventsOf fun hstop => hcalls (hstop ▸ hc), trivial⟩
  rw [← flatMap_events_transcript, List.filterMap_flatMap]
  exact List.flatMap_congr hentry

theorem entered_entry_of_phase_eq {c : FramerCall} (h : (f.after c).phase = f.phase) :
    (f.entry c).entered = [] := by
  cases c with
  | start => rfl
  | _ => simp only [Entry.entered, entry, h, Phase.entered_self]

/-- What a call enters is the last that is known of the phase. -/
theorem getD_getLast?_entered (f : Framer σ) (c : FramerCall) :
    (f.entry c).entered.getLast?.getD (if (f.entry c).begins then .running else f.phase) =
      (f.after c).phase := by
  cases c with
  | start =>
    rcases f.phase_start with ⟨hok, -, hrunning⟩ | ⟨⟨e, he⟩, hsame⟩
    · have hbegins : (f.entry .start).begins = true := by
        simp only [Entry.begins, entry, reply, answer, hok]
      rw [hbegins]
      exact hrunning.symm
    · have hbegins : (f.entry .start).begins = false := by
        simp only [Entry.begins, entry, reply, answer, he]
      rw [hbegins]
      exact hsame.symm
  | command c => exact Phase.getD_getLast?_entered ..
  | stop => exact Phase.getD_getLast?_entered ..
  | quantum input buffer => exact Phase.getD_getLast?_entered ..

/-- The one call that begins leads from the first phase to the second. -/
theorem phase_of_begins {c : FramerCall} (h : (f.entry c).begins = true) :
    f.phase = .created ∧ (f.after c).phase = .running := by
  cases c with
  | start =>
    rcases f.phase_start with ⟨-, hcreated, hrunning⟩ | ⟨⟨e, he⟩, -⟩
    · exact ⟨hcreated, hrunning⟩
    · simp only [Entry.begins, entry, reply, answer, he] at h
      cases h
  | _ => cases h

theorem any_begins_transcript (hphase : f.phase ≠ .created) (calls : List FramerCall) :
    (f.transcript calls).any Entry.begins = false := by
  refine List.any_eq_false.mpr ?_
  refine forall_transcript (P := fun g => g.phase ≠ .created) ?_ hphase
  intro g hg c _
  exact ⟨fun hbegins => hg (phase_of_begins hbegins).1,
    fun hcreated => hg ((g.moves_after c).eq_created hcreated)⟩

/-- The phase is the last one announced, or else that of a successful start, or else the first. -/
theorem phase_replay (f : Framer σ) (calls : List FramerCall) :
    (f.replay calls).phase = ((f.transcript calls).flatMap Entry.entered).getLast?.getD
      (if (f.transcript calls).any Entry.begins then .running else f.phase) := by
  induction calls generalizing f with
  | nil => rfl
  | cons c rest ih =>
    have hknown : (if ((f.after c).transcript rest).any Entry.begins then .running
          else (f.after c).phase) =
        (f.entry c).entered.getLast?.getD
          (if (f.entry c).begins || ((f.after c).transcript rest).any Entry.begins then .running
            else f.phase) := by
      by_cases hcreated : (f.after c).phase = .created
      · -- Nothing has happened yet, so it is still open whether a start succeeds.
        have hsame : (f.after c).phase = f.phase :=
          hcreated.trans ((f.moves_after c).eq_created hcreated).symm
        have hbegins : (f.entry c).begins = false := by
          rw [Bool.eq_false_iff]
          intro hbegins
          rw [(phase_of_begins hbegins).2] at hcreated
          cases hcreated
        rw [entered_entry_of_phase_eq hsame, hbegins, hsame, Bool.false_or]
        rfl
      · rw [any_begins_transcript hcreated, Bool.or_false, f.getD_getLast?_entered c]
        rfl
    rw [replay_cons, ih, hknown, transcript, List.flatMap_cons, List.any_cons,
      List.getLast?_append, Option.getD_or]

/-! ## Sessions -/

theorem lawful_entry (f : Framer σ) (c : FramerCall) : (f.entry c).Lawful where
  started hstart := by
    obtain rfl : c = .start := hstart
    rcases f.phase_start with ⟨hok, hcreated, hrunning⟩ | ⟨⟨e, he⟩, hsame⟩
    · exact Or.inl ⟨congrArg Answer.started hok, hcreated, hrunning⟩
    · exact Or.inr ⟨⟨e, congrArg Answer.started he⟩, hsame⟩
  refused hstart hcreated := by
    obtain rfl : c = .start := hstart
    exact congrArg (fun o => Answer.started o.result) (start_of_ne hcreated)
  applied command hcommand := by
    obtain rfl : c = .command command := hcommand
    change (f.apply command).framer.phase = (f.phase.after command).getD f.phase ∧
      ∃ changed, Answer.applied (f.apply command).answer = .applied changed ∧
        (changed = true ↔ (f.apply command).framer.phase ≠ f.phase)
    rcases f.phase_apply command with ⟨hafter, happly⟩ | ⟨hafter, hanswer, -⟩
    · rw [hafter, happly]
      exact ⟨rfl, false, rfl, by simp⟩
    · have hne := f.phase.after_ne_self _ command hafter
      rw [hafter, hanswer]
      exact ⟨rfl, true, rfl, by simp [hne]⟩
  delivered input buffer hquantum := by
    obtain rfl : c = .quantum input buffer := hquantum
    refine ⟨?_, _, rfl, ?_⟩
    · rcases f.phase_quantum input buffer with ⟨hsame, -⟩ | ⟨hrunning, hbypassed, -⟩
      · exact Or.inl hsame
      · exact Or.inr ⟨hrunning, hbypassed⟩
    · rw [keepGoing_quantum]
      simp [entry]
  not_created hfound hleft := hfound ((f.moves_after c).eq_created hleft)
  bypassed_from hfound hleft := (f.moves_after c).eq_running hleft hfound
  bypassed_to := (f.moves_after c).eq_of_bypassed
  stopped := (f.moves_after c).eq_stopped
  requests _ _ _ hr := running_of_process_mem_requests hr

/-- What a call settles is a matter of the phases, which its successors find. -/
theorem binds_transcript (f : Framer σ) (calls : List FramerCall) :
    (f.transcript calls).Pairwise Entry.Binds := by
  refine pairwise_transcript (P := fun r g => (r.left ≠ .created → g.phase ≠ .created) ∧
    (r.left = .stopped → g.phase = .stopped) ∧
      ∀ d, r.reply.answer = .delivered d → d.keepGoing = false → g.phase = .stopped) ?_ ?_ f calls
  · intro g c
    refine ⟨id, id, ?_⟩
    intro d hd hgo
    cases c with
    | quantum input buffer =>
      obtain rfl := Answer.delivered.inj hd
      rw [keepGoing_quantum] at hgo
      exact stopped_after (not_not.mp (of_decide_eq_false hgo)) _
    | _ => cases hd
  · rintro r g ⟨hcreated, hstopped, hgo⟩ c
    have hlawful := g.lawful_entry c
    refine ⟨⟨?_, ?_, ?_, ?_⟩, ?_, ?_, ?_⟩
    · exact fun h => hlawful.not_created (hcreated h)
    · exact fun h => hlawful.stopped (hstopped h)
    · intro h hstart
      have hfound : g.phase = .stopped := hstopped h
      have hrefused := hlawful.refused hstart
      simp only [entry, hfound] at hrefused
      exact hrefused nofun
    · intro d hd hend d' hd'
      have hfound : g.phase = .stopped := hgo d hd hend
      cases c with
      | quantum input buffer =>
        obtain rfl := Answer.delivered.inj hd'
        rw [keepGoing_quantum, hfound]
        rfl
      | _ => cases hd'
    · exact fun h => hlawful.not_created (hcreated h)
    · exact fun h => hlawful.stopped (hstopped h)
    · exact fun d hd hend => hlawful.stopped (hgo d hd hend)

/-- Phases and events keep in step. In any session on a new framer, the events that announce a
phase are those of the phases that commands and failing callbacks enter, in order; a start
announces none. The last of them is the phase at the end, and without any it is up to whether a
start has succeeded. Every single call is lawful, whatever the calls before it, and what it settles
is never undone. All callbacks are counted. -/
theorem transcript_lawful (sizing : Sizing) (s : σ) {calls : List FramerCall}
    (hcalls : .stop ∉ calls) :
    let f := (new sizing s).replay calls
    let session := (new sizing s).transcript calls
    let phases := ((new sizing s).eventsDuring calls).filterMap Event.phase?
    phases = session.flatMap Entry.entered ∧
    f.phase = phases.getLast?.getD (if session.any Entry.begins then .running else .created) ∧
    (∀ r ∈ session, r.Lawful) ∧ session.Pairwise Entry.Binds ∧
    f.callbacks = calls.countP FramerCall.isCallback := by
  intro f session phases
  have hphases : phases = session.flatMap Entry.entered :=
    (new sizing s).phases_eventsDuring hcalls
  refine ⟨hphases, ?_, ?_, (new sizing s).binds_transcript calls, ?_⟩
  · rw [hphases]
    exact (new sizing s).phase_replay calls
  · refine forall_transcript (P := fun _ => True) ?_ trivial
    exact fun g _ c _ => ⟨g.lawful_entry c, trivial⟩
  · exact ((new sizing s).callbacks_replay calls).trans (Nat.zero_add _)

/-- A failure in the middle of a callback between commands that do something and others that
do nothing. -/
theorem transcript_lawful_of_failure :
    let calls : List FramerCall := [.command .resume, .start, .start, .quantum [.one, .one] [.one],
      .command .pause, .quantum [] [], .command .pause, .command .resume,
      .quantum (Sample.silence 5) [.one], .quantum (Sample.silence 5) [.one], .command .resume,
      .quantum [.one] [], .command .stop, .start, .quantum [.one] []]
    let f := (new ⟨48000, 3, 2, 2⟩ fragileEngine).replay calls
    let events := (new ⟨48000, 3, 2, 2⟩ fragileEngine).eventsDuring calls
    .stop ∉ calls ∧ events.filterMap Event.phase? = [.paused, .running, .bypassed, .stopped] ∧
      f.phase = .stopped ∧ f.callbacks = 6 := by
  intro calls f events
  have hcalls : .stop ∉ calls := by simp [calls]
  obtain ⟨hphases, hphase, -, -, hcallbacks⟩ :=
    transcript_lawful ⟨48000, 3, 2, 2⟩ fragileEngine hcalls
  have hentered : events.filterMap Event.phase? = [.paused, .running, .bypassed, .stopped] := by
    rw [hphases]
    decide +kernel
  refine ⟨hcalls, hentered, ?_, hcallbacks⟩
  rw [hphase, hentered]
  rfl

end Framer

end AudioFraming
