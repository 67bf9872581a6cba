import AudioFraming.Proofs.Framer.Service

/-!
# Tallies and events

The rings of a framer count what happens to them, and the framer emits events about
it. The two records are kept in different places: a ring counts inside its own
operations, while the framer compares tallies from before and after a push, looks at
its input, or finds that a pull has read nothing. They always agree: each ring has
counted what the events tell about it (`tallies_match_events`).

`Progress.Accounts` states the agreement in the middle of a callback, where a failure
can end it, and `Framer.Accounts` between calls.
-/

namespace AudioFraming

/-- How many samples an event says that a ring has evicted. -/
def Event.evicted? (side : Side) : Event → Option Nat
  | .overflow s n => if s = side then some n else none
  | _ => none

namespace RingTally

instance : Add RingTally where
  add s t := ⟨s.overflows + t.overflows, s.evicted + t.evicted, s.underflows + t.underflows,
    s.emptyPushes + t.emptyPushes⟩

theorem add_eq (s t : RingTally) : s + t = ⟨s.overflows + t.overflows, s.evicted + t.evicted,
    s.underflows + t.underflows, s.emptyPushes + t.emptyPushes⟩ := rfl

theorem add_nothing (t : RingTally) : t + {} = t := rfl

theorem add_assoc (s t u : RingTally) : s + t + u = s + (t + u) := by
  simp only [add_eq, Nat.add_assoc]

/-- What events tell about a ring. -/
def ofEvents (side : Side) (events : List Event) : RingTally where
  overflows := (events.filterMap (Event.evicted? side)).length
  evicted := (events.filterMap (Event.evicted? side)).sum
  underflows := events.count (.underflow side)
  emptyPushes := events.count (.emptyPush side)

theorem ofEvents_append (side : Side) (events later : List Event) :
    ofEvents side (events ++ later) = ofEvents side events + ofEvents side later := by
  simp only [ofEvents, add_eq, List.filterMap_append, List.length_append, List.sum_append,
    List.count_append]

/-- Events that are not about rings add nothing. -/
theorem ofEvents_append_phaseChanged (side : Side) (events : List Event) (phase : Phase) :
    ofEvents side (events ++ [.phaseChanged phase]) = ofEvents side events := by
  rw [ofEvents_append]
  rfl

theorem ofEvents_append_failure (side : Side) (events : List Event) (e : SetupError)
    (phase : Phase) :
    ofEvents side (events ++ [.ofFailure e, .phaseChanged phase]) = ofEvents side events := by
  rw [ofEvents_append]
  cases e <;> rfl

theorem ofEvents_overflowEvents_of_ne {side other : Side} (hne : side ≠ other)
    (before after : RingTally) : ofEvents other (overflowEvents side before after) = {} := by
  unfold overflowEvents
  split_ifs
  · simp [ofEvents, Event.evicted?, hne]
  · rfl

end RingTally

namespace SampleRing

open RingTally

/-- The events of a push tell what it has added to the tally. -/
theorem tally_push_eq_add {r s : SampleRing} {block : List Sample} {n : Nat} (side : Side)
    (h : r.push block = .ok (n, s)) :
    s.tally = r.tally + ofEvents side
      ((if block = [] then [.emptyPush side] else []) ++ overflowEvents side r.tally s.tally) := by
  rw [tally_push h]
  split_ifs <;> simp [ofEvents, overflowEvents, add_eq, Event.evicted?, List.filterMap_cons]

end SampleRing

namespace Progress

open RingTally

variable {σ : Type}

/-- Since the rings had the given tallies, they have counted what the events tell. -/
structure Accounts (input output : RingTally) (p : Progress σ) : Prop where
  input_eq : p.input.tally = input + ofEvents .input p.events
  output_eq : p.output.tally = output + ofEvents .output p.events
  mild : ∀ e ∈ p.events, e.Mild

namespace Accounts

variable {input output : RingTally} {p q : Progress σ} {lease : Lease} {frame : Nat}
  {block : List Sample}

/-- Neither of the two events that have no place in a callback is among the events so far. -/
theorem quiet (h : p.Accounts input output) :
    .underflow .input ∉ p.events ∧ .emptyPush .output ∉ p.events := by
  constructor
  all_goals
    intro he
    rcases h.mild _ he with he | ⟨side, n, he⟩ <;> cases he

/-- A block goes into the input ring, or it is refused and nothing is counted. -/
theorem absorb (h : p.Accounts input output) : (p.absorb block).2.Accounts input output := by
  unfold Progress.absorb
  cases hpush : p.input.push block with
  | error e =>
    have hne : block ≠ [] := by
      rintro rfl
      have hlong := ((p.input.push_eq_error_iff [] e).mp hpush).1
      simp at hlong
    simp only [if_neg hne]
    exact ⟨h.input_eq, h.output_eq, h.mild⟩
  | ok pushed =>
    obtain ⟨n, ring⟩ := pushed
    have hnoted : (if block = [] then p.events ++ [.emptyPush .input] else p.events) =
        p.events ++ if block = [] then [.emptyPush .input] else [] := by
      split_ifs <;> simp
    have hother : ofEvents .output
        ((if block = [] then [.emptyPush .input] else []) ++
          overflowEvents .input p.input.tally ring.tally) = {} := by
      rw [ofEvents_append, ofEvents_overflowEvents_of_ne (by decide), add_nothing]
      split_ifs <;> rfl
    simp only [hnoted, List.append_assoc]
    refine ⟨?_, ?_, ?_⟩
    · dsimp only
      rw [ofEvents_append, ← add_assoc, ← h.input_eq]
      exact SampleRing.tally_push_eq_add .input hpush
    · dsimp only
      rw [ofEvents_append, hother, add_nothing]
      exact h.output_eq
    · intro e he
      simp only [List.mem_append] at he
      rcases he with he | he | he
      · exact h.mild e he
      · split_ifs at he
        · exact Or.inl (List.mem_singleton.mp he)
        · cases he
      · exact mild_of_mem_overflowEvents he

/-- A frame goes into the output ring, or there is no room for it and nothing is counted. -/
theorem emit (h : p.Accounts input output) (hne : block ≠ []) :
    (p.emit block).Accounts input output := by
  unfold Progress.emit
  cases hpush : p.output.push block with
  | error e => exact h
  | ok pushed =>
    obtain ⟨n, ring⟩ := pushed
    have htally := SampleRing.tally_push_eq_add .output hpush
    rw [if_neg hne, List.nil_append] at htally
    refine ⟨?_, ?_, ?_⟩
    · dsimp only
      rw [ofEvents_append, ofEvents_overflowEvents_of_ne (by decide), add_nothing]
      exact h.input_eq
    · dsimp only
      rw [ofEvents_append, ← add_assoc, ← h.output_eq]
      exact htally
    · intro e he
      rcases List.mem_append.mp he with he | he
      · exact h.mild e he
      · exact mild_of_mem_overflowEvents he

variable [Engine σ]

/-- A whole frame waits, so the pull that moves it counts no underflow. -/
theorem load (h : p.Accounts input output) (ha : frame ≤ p.input.available)
    (hload : p.load lease frame = .ok q) : q.Accounts input output := by
  unfold Progress.load at hload
  dsimp only at hload
  split at hload
  · cases hload
  · rename_i stale hread
    split at hload
    · cases hload
    · obtain rfl := Except.ok.inj hload
      have htally := p.input.tally_pull stale
      rw [Arena.length_of_read hread, if_pos ha] at htally
      exact ⟨htally.trans h.input_eq, h.output_eq, h.mild⟩

/-- Wherever a pass ends, its engine has not touched the rings. -/
theorem pass (h : p.Accounts input output) (hpos : 0 < frame)
    (ha : frame ≤ p.input.available) : (p.pass lease frame).2.Accounts input output := by
  unfold Progress.pass
  split
  · exact h
  · rename_i q hload
    have hq := h.load ha hload
    split
    · exact ⟨hq.input_eq, hq.output_eq, hq.mild⟩
    · rename_i vad engine _
      have hserved : Accounts input output { q with engine := engine, vad := vad } :=
        ⟨hq.input_eq, hq.output_eq, hq.mild⟩
      dsimp only
      split
      · exact hserved
      · rename_i made hread
        have hne : made ≠ [] := by
          rintro rfl
          have hlen := Arena.length_of_read hread
          exact Nat.ne_of_gt hpos hlen.symm
        have hemit := hserved.emit hne
        exact ⟨hemit.input_eq, hemit.output_eq, hemit.mild⟩

theorem advance (h : p.Accounts input output) (hpos : 0 < frame) :
    (p.advance lease frame block).2.Accounts input output :=
  advance_induction (fun _ hq ha => hq.pass hpos ha) h.absorb

end Accounts

end Progress

namespace Framer

open RingTally

variable {σ : Type}

/-- What a callback adds to the tallies, and events that have no place in it. -/
structure Reports (h : Holdings) (events : List Event) (h' : Holdings) : Prop where
  input_eq : h'.input.tally = h.input.tally + ofEvents .input events
  output_eq : h'.output.tally = h.output.tally + ofEvents .output events
  no_underflow : .underflow .input ∉ events
  no_emptyPush : .emptyPush .output ∉ events

variable {h : Holdings} {f : Framer σ} {p : Progress σ}

theorem reports_fail (lease : Lease) (e : SetupError) (input : List Sample) (length : Nat)
    (hp : p.Accounts h.input.tally h.output.tally) :
    Reports h (f.fail lease p e input length).events ⟨p.input.clear, p.output.clear, lease⟩ := by
  refine ⟨?_, ?_, ?_, ?_⟩
  · rw [fail, ofEvents_append_failure]
    exact hp.input_eq
  · rw [fail, ofEvents_append_failure]
    exact hp.output_eq
  · cases e <;> simpa [fail, Event.ofFailure] using hp.quiet.1
  · cases e <;> simpa [fail, Event.ofFailure] using hp.quiet.2

theorem reports_deliver (lease : Lease) (buffer : List Sample)
    (hp : p.Accounts h.input.tally h.output.tally) :
    ∃ h', (f.deliver lease p buffer).framer.holdings = some h' ∧
      Reports h (f.deliver lease p buffer).events h' := by
  obtain ⟨ring, hframer, hhands⟩ := f.hands_deliver lease p buffer
  have hquiet := hp.quiet
  generalize f.deliver lease p buffer = o at *
  refine ⟨⟨p.input, ring, lease⟩, by rw [hframer]; rfl, ?_⟩
  cases hhands with
  | warmup hleft hring hblock hevents =>
    rw [hevents, hring]
    exact ⟨hp.input_eq, hp.output_eq, hquiet.1, hquiet.2⟩
  | missed hleft hlt hcapacity hlist htally hblock hevents =>
    rw [hevents]
    refine ⟨?_, ?_, ?_, ?_⟩
    · rw [ofEvents_append]
      exact hp.input_eq
    · rw [ofEvents_append, ← add_assoc, ← hp.output_eq]
      exact htally
    · simpa using hquiet.1
    · simpa using hquiet.2
  | filled hleft hle hcapacity hlist htally hblock hevents =>
    rw [hevents]
    exact ⟨hp.input_eq, htally.trans hp.output_eq, hquiet.1, hquiet.2⟩

variable [Engine σ]

/-- A callback that reaches the engine, whether it fails on the way or not. -/
theorem reports_quantum (hphase : f.phase = .running) (hsome : f.holdings = some h)
    (hframe : 0 < f.engineFrame.toNat) (input buffer : List Sample) :
    ∃ h', (f.quantum input buffer).framer.holdings = some h' ∧
      Reports h (f.quantum input buffer).events h' := by
  have hstart : (f.progress h).Accounts h.input.tally h.output.tally :=
    ⟨rfl, rfl, fun _ he => by cases he⟩
  have hacc : ((f.progress h).advance h.lease f.engineFrame.toNat input).2.Accounts
      h.input.tally h.output.tally := hstart.advance hframe
  rcases hadvance : (f.progress h).advance h.lease f.engineFrame.toNat input with ⟨fault | e, p⟩
  · rw [hadvance] at hacc
    rw [quantum_eq_deliver hphase hsome hadvance]
    exact reports_deliver _ _ hacc
  · rw [hadvance] at hacc
    rw [quantum_eq_fail hphase hsome hadvance]
    exact ⟨_, rfl, reports_fail _ _ _ _ hacc⟩

/-- A start leaves the rings as they are or provides new ones. -/
theorem tally_start (hsome : f.start.framer.holdings = some h) :
    f.holdings = some h ∨
      f.phase = .created ∧ h.input.tally = {} ∧ h.output.tally = {} := by
  unfold start at hsome
  split_ifs at hsome with hphase hpos
  · exact Or.inl hsome
  · split at hsome
    · exact Or.inl hsome
    · split at hsome
      · exact Or.inl hsome
      · obtain rfl := Option.some.inj hsome
        exact Or.inr ⟨not_not.mp hphase, rfl, rfl⟩
  · split at hsome <;> exact Or.inl hsome

/-- Both rings have counted what the events tell, and before the start there is nothing to
count. -/
structure Accounts (events : List Event) (f : Framer σ) : Prop where
  rings : ∀ h, f.holdings = some h →
    h.input.tally = ofEvents .input events ∧ h.output.tally = ofEvents .output events
  created : f.phase = .created → ofEvents .input events = {} ∧ ofEvents .output events = {}
  no_underflow : .underflow .input ∉ events
  no_emptyPush : .emptyPush .output ∉ events

namespace Accounts

variable {events : List Event}

theorem start (hf : Accounts events f) : Accounts events f.start.framer where
  rings h hsome := by
    rcases tally_start hsome with hsome | ⟨hcreated, hin, hout⟩
    · exact hf.rings h hsome
    · obtain ⟨hin', hout'⟩ := hf.created hcreated
      exact ⟨hin.trans hin'.symm, hout.trans hout'.symm⟩
  created hphase := by
    rcases f.start_eq with ⟨e, fault, hstart⟩ | ⟨e, h, left, logs, hstart⟩
    · rw [hstart] at hphase
      exact hf.created hphase
    · rw [hstart] at hphase
      cases hphase
  no_underflow := hf.no_underflow
  no_emptyPush := hf.no_emptyPush

/-- A command keeps the agreement, whether its event is collected or not. -/
theorem apply (hf : Accounts events f) (c : Command) {heard : List Event}
    (hheard : heard = [] ∨ heard = (f.apply c).events) :
    Accounts (events ++ heard) (f.apply c).framer := by
  rcases f.apply_eq c with happly | ⟨q, hafter, happly⟩
  · rw [happly] at hheard ⊢
    have hnone : heard = [] := by simpa using hheard
    rw [hnone, List.append_nil]
    exact hf
  · rw [happly] at hheard ⊢
    have hsame : ∀ side, ofEvents side (events ++ heard) = ofEvents side events := by
      intro side
      rcases hheard with rfl | rfl
      · rw [List.append_nil]
      · exact ofEvents_append_phaseChanged ..
    refine ⟨?_, ?_, ?_, ?_⟩
    · intro h hsome
      rw [hsame, hsame]
      rcases f.holdings_apply c with hsame | hnone
      · rw [← happly, hsame] at hsome
        exact hf.rings h hsome
      · rw [← happly, hnone] at hsome
        cases hsome
    · rintro (rfl : q = .created)
      rcases Phase.after_cases hafter with ⟨hq, -⟩ | ⟨-, hq | hq⟩ <;> cases hq
    · rcases hheard with rfl | rfl <;> simpa using hf.no_underflow
    · rcases hheard with rfl | rfl <;> simpa using hf.no_emptyPush

theorem quantum (hf : Accounts events f) (hframe : 0 < f.engineFrame.toNat)
    (input buffer : List Sample) :
    Accounts (events ++ (f.quantum input buffer).events) (f.quantum input buffer).framer := by
  by_cases hruns : f.phase = .running ∧ ∃ h, f.holdings = some h
  · obtain ⟨hphase, h, hsome⟩ := hruns
    obtain ⟨h', hsome', hreports⟩ := reports_quantum hphase hsome hframe input buffer
    obtain ⟨-, hphase', -⟩ := quantum_running hphase hsome input buffer
    obtain ⟨hin, hout⟩ := hf.rings h hsome
    refine ⟨?_, ?_, ?_, ?_⟩
    · intro h'' hsome''
      rw [hsome'] at hsome''
      obtain rfl := Option.some.inj hsome''
      rw [ofEvents_append, ofEvents_append, ← hin, ← hout]
      exact ⟨hreports.input_eq, hreports.output_eq⟩
    · intro hcreated
      rw [hcreated] at hphase'
      rcases hphase' with hphase' | hphase' <;> cases hphase'
    · simpa using ⟨hf.no_underflow, hreports.no_underflow⟩
    · simpa using ⟨hf.no_emptyPush, hreports.no_emptyPush⟩
  · rw [quantum_of_not_runs hruns, List.append_nil]
    exact ⟨hf.rings, hf.created, hf.no_underflow, hf.no_emptyPush⟩

theorem after (hf : Accounts events f) (hframe : 0 < f.engineFrame.toNat) (c : FramerCall) :
    Accounts (events ++ f.eventsOf c) (f.after c) := by
  cases c with
  | start =>
    rw [eventsOf, List.append_nil]
    exact hf.start
  | command c => exact hf.apply c (Or.inr rfl)
  | stop => exact hf.apply .stop (Or.inl rfl)
  | quantum input buffer => exact hf.quantum hframe input buffer

theorem replay (hf : Accounts events f) (calls : List FramerCall)
    (hframe : ∀ k, 0 < (f.replay (calls.take k)).engineFrame.toNat) :
    Accounts (events ++ f.eventsDuring calls) (f.replay calls) := by
  induction calls generalizing f events with
  | nil =>
    rw [eventsDuring, List.append_nil]
    exact hf
  | cons c rest ih =>
    have hrest := ih (hf.after (hframe 0) c) fun k => hframe (k + 1)
    rw [List.append_assoc] at hrest
    exact hrest

end Accounts

/-- After any calls on a new framer, each of its rings has counted exactly what the events tell:
as many overflows with as many evicted samples, as many underflows, as many empty pushes. The
input ring has never underflowed, and nothing empty was ever pushed to the output ring. All an
engine has to do for it is to ask for frames of a sample or more. -/
theorem tallies_match_events (sizing : Sizing) (s : σ) (calls : List FramerCall)
    (hframe : ∀ k, 0 < ((new sizing s).replay (calls.take k)).engineFrame.toNat) :
    let f := (new sizing s).replay calls
    let events := (new sizing s).eventsDuring calls
    (∀ h, f.holdings = some h →
      h.input.tally = ofEvents .input events ∧ h.output.tally = ofEvents .output events ∧
        h.input.tally.underflows = 0 ∧ h.output.tally.emptyPushes = 0) ∧
    .underflow .input ∉ events ∧ .emptyPush .output ∉ events := by
  have hnew : Accounts [] (new sizing s) :=
    ⟨fun _ hsome => (by cases hsome), fun _ => ⟨rfl, rfl⟩, List.not_mem_nil, List.not_mem_nil⟩
  have hf := hnew.replay calls hframe
  rw [List.nil_append] at hf
  refine ⟨?_, hf.no_underflow, hf.no_emptyPush⟩
  intro h hsome
  obtain ⟨hin, hout⟩ := hf.rings h hsome
  refine ⟨hin, hout, ?_, ?_⟩
  · rw [hin]
    exact List.count_eq_zero.mpr hf.no_underflow
  · rw [hout]
    exact List.count_eq_zero.mpr hf.no_emptyPush

/-- Fails at its fifth frame. -/
def fragileEngine : ScriptedEngine where
  inner := .ofMemory 2 8
  script := { failAt := some 4 }

/-- Overflows of both rings, an underflow and empty pushes, and a failure in the middle of the last
callback, after a frame that has made the output ring overflow once more. -/
theorem tallies_match_events_of_failure :
    let calls : List FramerCall := [.start, .quantum [] [.one], .quantum [] [.one],
      .quantum [.one] [], .quantum (Sample.silence 6) [], .command .pause, .command .resume,
      .quantum (Sample.silence 4) []]
    let f := (new ⟨48000, 3, 2, 2⟩ fragileEngine).replay calls
    let events := (new ⟨48000, 3, 2, 2⟩ fragileEngine).eventsDuring calls
    (∀ k, 0 < ((new ⟨48000, 3, 2, 2⟩ fragileEngine).replay (calls.take k)).engineFrame.toNat) ∧
      f.phase = .bypassed ∧
      ∃ h, f.holdings = some h ∧ h.input.tally = ⟨1, 1, 0, 2⟩ ∧ h.output.tally = ⟨1, 2, 1, 0⟩ ∧
        ofEvents .input events = ⟨1, 1, 0, 2⟩ ∧ ofEvents .output events = ⟨1, 2, 1, 0⟩ := by
  intro calls f events
  have hframe : ∀ k, 0 < ((new ⟨48000, 3, 2, 2⟩ fragileEngine).replay
      (calls.take k)).engineFrame.toNat := by
    intro k
    by_cases hk : k < 8
    · interval_cases k <;> decide +kernel
    · rw [List.take_of_length_le (Nat.not_lt.mp hk)]
      decide +kernel
  obtain ⟨hrings, -⟩ := tallies_match_events ⟨48000, 3, 2, 2⟩ fragileEngine calls hframe
  have hphase : f.phase = .bypassed := by decide +kernel
  have hholds : f.holdings.isSome := by decide +kernel
  obtain ⟨h, hsome⟩ := Option.isSome_iff_exists.mp hholds
  obtain ⟨hin, hout, -⟩ := hrings h hsome
  have hinput : ofEvents .input events = ⟨1, 1, 0, 2⟩ := by decide +kernel
  have houtput : ofEvents .output events = ⟨1, 2, 1, 0⟩ := by decide +kernel
  exact ⟨hframe, hphase, h, hsome, hin.trans hinput, hout.trans houtput, hinput, houtput⟩

end Framer

end AudioFraming
