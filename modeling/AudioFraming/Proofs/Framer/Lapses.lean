import AudioFraming.Proofs.Framer.Accounts

/-!
# Overflows and underflows

A callback emits an event for every push that had to evict, for every pull for the host
that found too little, and nothing else apart from the failure that ends it. So the
overflows that the two rings have counted together, and the underflows of the output
ring, can be counted in the events. `Accounts` says more about each ring, but only of
engines that ask for frames of a sample or more; an empty frame counts as an empty push
that no event tells of, and leaves what is counted here alone.
-/

namespace AudioFraming

namespace Event

def isOverflow : Event → Bool
  | overflow .. => true
  | _ => false

def isUnderflow : Event → Bool
  | underflow _ => true
  | _ => false

theorem Mild.not_underflow {e : Event} (h : e.Mild) : ¬e.isUnderflow := by
  rcases h with rfl | ⟨side, n, rfl⟩ <;> simp [isUnderflow]

end Event

theorem countP_isUnderflow_of_mild {events : List Event} (h : ∀ e ∈ events, e.Mild) :
    events.countP Event.isUnderflow = 0 :=
  List.countP_eq_zero.mpr fun e he => (h e he).not_underflow

/-- The end of a failing callback is no lapse of a ring. -/
theorem countP_append_failure (events : List Event) (e : SetupError) (phase : Phase) :
    (events ++ [Event.ofFailure e, .phaseChanged phase]).countP Event.isOverflow =
        events.countP Event.isOverflow ∧
      (events ++ [Event.ofFailure e, .phaseChanged phase]).countP Event.isUnderflow =
        events.countP Event.isUnderflow := by
  cases e <;> simp [Event.ofFailure, Event.isOverflow, Event.isUnderflow]

namespace SampleRing

/-- A push counts an overflow exactly if there is an event of it. -/
theorem overflows_push {r s : SampleRing} {block : List Sample} {n : Nat} (side : Side)
    (h : r.push block = .ok (n, s)) :
    s.tally.overflows = r.tally.overflows +
        (overflowEvents side r.tally s.tally).countP Event.isOverflow ∧
      s.tally.underflows = r.tally.underflows := by
  rw [tally_push h]
  split_ifs <;> simp [overflowEvents, Event.isOverflow]

/-- A pull evicts nothing. -/
theorem overflows_pull (r : SampleRing) (destination : List Sample) :
    (r.pull destination).ring.tally.overflows = r.tally.overflows := by
  rw [tally_pull]
  split_ifs <;> rfl

end SampleRing

namespace Holdings

/-- How often the rings had to evict. -/
def overflows (h : Holdings) : Nat := h.input.tally.overflows + h.output.tally.overflows

/-- How often the host was left without samples. -/
def underflows (h : Holdings) : Nat := h.output.tally.underflows

end Holdings

namespace Progress

variable {σ : Type}

/-- Since the rings had counted the given numbers, they have counted what the events tell. -/
structure Lapses (overflows underflows : Nat) (p : Progress σ) : Prop where
  overflows_eq : p.input.tally.overflows + p.output.tally.overflows =
    overflows + p.events.countP Event.isOverflow
  underflows_eq : p.output.tally.underflows = underflows
  mild : ∀ e ∈ p.events, e.Mild

namespace Lapses

variable {overflows underflows : Nat} {p q : Progress σ} {lease : Lease} {frame : Nat}
  {block : List Sample}

theorem absorb (h : p.Lapses overflows underflows) :
    (p.absorb block).2.Lapses overflows underflows := by
  have hnoted : ∀ e ∈ (if block = [] then p.events ++ [.emptyPush .input] else p.events),
      e.Mild := by
    intro e he
    split_ifs at he
    · rcases List.mem_append.mp he with he | he
      · exact h.mild e he
      · exact Or.inl (List.mem_singleton.mp he)
    · exact h.mild e he
  have hcount : (if block = [] then p.events ++ [.emptyPush .input] else p.events).countP
      Event.isOverflow = p.events.countP Event.isOverflow := by
    split_ifs
    · simp [Event.isOverflow]
    · rfl
  unfold Progress.absorb
  cases hpush : p.input.push block with
  | error e => exact ⟨h.overflows_eq.trans (congrArg _ hcount.symm), h.underflows_eq, hnoted⟩
  | ok pushed =>
    obtain ⟨n, ring⟩ := pushed
    obtain ⟨hover, -⟩ := SampleRing.overflows_push .input hpush
    have hbefore := h.overflows_eq
    refine ⟨?_, h.underflows_eq, ?_⟩
    · dsimp only
      rw [List.countP_append, hcount]
      omega
    · intro e he
      rcases List.mem_append.mp he with he | he
      · exact hnoted e he
      · exact mild_of_mem_overflowEvents he

theorem emit (h : p.Lapses overflows underflows) :
    (p.emit block).Lapses overflows underflows := by
  unfold Progress.emit
  cases hpush : p.output.push block with
  | error e => exact h
  | ok pushed =>
    obtain ⟨n, ring⟩ := pushed
    obtain ⟨hover, hunder⟩ := SampleRing.overflows_push .output hpush
    have hbefore := h.overflows_eq
    refine ⟨?_, hunder.trans h.underflows_eq, ?_⟩
    · dsimp only
      rw [List.countP_append]
      omega
    · intro e he
      rcases List.mem_append.mp he with he | he
      · exact h.mild e he
      · exact mild_of_mem_overflowEvents he

variable [Engine σ]

theorem load (h : p.Lapses overflows underflows) (hload : p.load lease frame = .ok q) :
    q.Lapses overflows underflows := by
  unfold Progress.load at hload
  dsimp only at hload
  split at hload
  · cases hload
  · rename_i stale _
    split at hload
    · cases hload
    · obtain rfl := Except.ok.inj hload
      refine ⟨?_, h.underflows_eq, h.mild⟩
      dsimp only
      rw [SampleRing.overflows_pull]
      exact h.overflows_eq

/-- Wherever a pass ends, its engine has not touched the rings. -/
theorem pass (h : p.Lapses overflows underflows) :
    (p.pass lease frame).2.Lapses overflows underflows := by
  unfold Progress.pass
  split
  · exact h
  · rename_i q hload
    have hq := h.load hload
    split
    · exact ⟨hq.overflows_eq, hq.underflows_eq, hq.mild⟩
    · rename_i vad engine _
      have hserved : Lapses overflows underflows { q with engine := engine, vad := vad } :=
        ⟨hq.overflows_eq, hq.underflows_eq, hq.mild⟩
      dsimp only
      split
      · exact hserved
      · rename_i made _
        have hemit : Lapses overflows underflows
            (Progress.emit { q with engine := engine, vad := vad } made) := hserved.emit
        exact ⟨hemit.overflows_eq, hemit.underflows_eq, hemit.mild⟩

theorem advance (h : p.Lapses overflows underflows) :
    (p.advance lease frame block).2.Lapses overflows underflows :=
  advance_induction (fun _ hq _ => hq.pass) h.absorb

end Lapses

end Progress

namespace Framer

variable {σ : Type} [Engine σ] {f : Framer σ} {h : Holdings}

/-- Where a callback begins, its rings have counted what they had counted before. -/
theorem lapses_advance (f : Framer σ) (h : Holdings) (frame : Nat) (input : List Sample) :
    ((f.progress h).advance h.lease frame input).2.Lapses h.overflows h.underflows := by
  have hstart : (f.progress h).Lapses h.overflows h.underflows :=
    ⟨rfl, rfl, fun _ he => by cases he⟩
  exact hstart.advance

/-- The rings, if there are any, have counted given numbers, and before the start there is nothing
to count. -/
structure Lapses (overflows underflows : Nat) (f : Framer σ) : Prop where
  rings : ∀ h, f.holdings = some h → h.overflows = overflows ∧ h.underflows = underflows
  created : f.phase = .created → overflows = 0 ∧ underflows = 0

namespace Lapses

variable {overflows underflows : Nat}

theorem start (hf : f.Lapses overflows underflows) :
    f.start.framer.Lapses overflows underflows where
  rings h hsome := by
    rcases tally_start hsome with hsome | ⟨hcreated, hin, hout⟩
    · exact hf.rings h hsome
    · obtain ⟨hover, hunder⟩ := hf.created hcreated
      rw [Holdings.overflows, Holdings.underflows, hin, hout, hover, hunder]
      exact ⟨rfl, rfl⟩
  created hphase := by
    rcases f.start_eq with ⟨e, fault, hstart⟩ | ⟨e, h, left, logs, hstart⟩
    · rw [hstart] at hphase
      exact hf.created hphase
    · rw [hstart] at hphase
      cases hphase

theorem apply (hf : f.Lapses overflows underflows) (c : Command) :
    (f.apply c).framer.Lapses overflows underflows where
  rings h hsome := by
    rcases f.holdings_apply c with hsame | hnone
    · rw [hsame] at hsome
      exact hf.rings h hsome
    · rw [hnone] at hsome
      cases hsome
  created hphase := by
    rcases f.apply_eq c with happly | ⟨q, hafter, happly⟩
    · rw [happly] at hphase
      exact hf.created hphase
    · rw [happly] at hphase
      obtain rfl : q = .created := hphase
      rcases Phase.after_cases hafter with ⟨hq, -⟩ | ⟨-, hq | hq⟩ <;> cases hq

theorem quantum (hf : f.Lapses overflows underflows) (input buffer : List Sample) :
    (f.quantum input buffer).framer.Lapses
      (overflows + (f.quantum input buffer).events.countP Event.isOverflow)
      (underflows + (f.quantum input buffer).events.countP Event.isUnderflow) := by
  cases f.quantum_case input buffer with
  | idle hruns heq =>
    rw [heq]
    exact ⟨hf.rings, hf.created⟩
  | fails h p e hphase hsome hadvance heq =>
    have hlapses := f.lapses_advance h f.engineFrame.toNat input
    obtain ⟨rfl, rfl⟩ := hf.rings h hsome
    obtain ⟨hover, hunder⟩ := countP_append_failure p.events e .bypassed
    rw [hadvance] at hlapses
    rw [heq]
    refine ⟨?_, nofun⟩
    intro h' hsome'
    obtain rfl := Option.some.inj hsome'
    dsimp only [fail]
    rw [hover, hunder, countP_isUnderflow_of_mild hlapses.mild]
    exact ⟨hlapses.overflows_eq, hlapses.underflows_eq⟩
  | delivers h p ring hphase hsome hadvance hframer hgo hhands =>
    have hlapses := f.lapses_advance h f.engineFrame.toNat input
    obtain ⟨rfl, rfl⟩ := hf.rings h hsome
    rw [hadvance] at hlapses
    have hover := hlapses.overflows_eq
    have hunder := hlapses.underflows_eq
    have hquiet := countP_isUnderflow_of_mild hlapses.mild
    rw [hframer]
    refine ⟨?_, fun hcreated => absurd (hphase.symm.trans hcreated) nofun⟩
    intro h' hsome'
    obtain rfl := Option.some.inj hsome'
    simp only [Holdings.overflows, Holdings.underflows] at hover hunder ⊢
    cases hhands with
    | warmup hleft hring hblock hevents =>
      rw [hevents, hring, hquiet]
      exact ⟨hover, hunder⟩
    | missed hleft hlt hcapacity hlist htally hblock hevents =>
      rw [hevents, htally, List.countP_append, List.countP_append, hquiet, hunder]
      exact ⟨hover, rfl⟩
    | filled hleft hle hcapacity hlist htally hblock hevents =>
      rw [hevents, htally, hquiet]
      exact ⟨hover, hunder⟩

theorem after (hf : f.Lapses overflows underflows) (c : FramerCall) :
    (f.after c).Lapses (overflows + (f.eventsOf c).countP Event.isOverflow)
      (underflows + (f.eventsOf c).countP Event.isUnderflow) := by
  cases c with
  | start => exact hf.start
  | command c =>
    have hquiet : (f.apply c).events.countP Event.isOverflow = 0 ∧
        (f.apply c).events.countP Event.isUnderflow = 0 := by
      rcases f.apply_eq c with happly | ⟨q, -, happly⟩ <;>
        · rw [happly]
          exact ⟨rfl, rfl⟩
    rw [eventsOf, hquiet.1, hquiet.2]
    exact hf.apply c
  | stop => exact hf.apply .stop
  | quantum input buffer => exact hf.quantum input buffer

theorem replay (hf : f.Lapses overflows underflows) (calls : List FramerCall) :
    (f.replay calls).Lapses (overflows + (f.eventsDuring calls).countP Event.isOverflow)
      (underflows + (f.eventsDuring calls).countP Event.isUnderflow) := by
  induction calls generalizing f overflows underflows with
  | nil => exact hf
  | cons c rest ih =>
    have hrest := ih (hf.after c)
    rw [Nat.add_assoc, Nat.add_assoc, ← List.countP_append, ← List.countP_append] at hrest
    exact hrest

end Lapses

end Framer

end AudioFraming
