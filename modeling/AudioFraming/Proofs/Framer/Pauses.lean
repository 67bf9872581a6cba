import AudioFraming.Proofs.Framer.LifeCycle

/-!
# Pauses

A pause leaves no trace. Next to a framer that pauses and goes on imagine one that is
`awake` all the time, and misses the calls of the pauses. Such a call does not change what
the other one is like (`awake_after_of_pausing`), and all other calls keep the two together
and get the same reply from both (`awake_after_of_kept`). The proof goes along this map of
framers, which forgets whether a framer pauses and how many callbacks there were.
-/

namespace AudioFraming

namespace Phase

/-- The phase without pauses. -/
def awake : Phase → Phase
  | paused => running
  | p => p

theorem awake_eq_self {p : Phase} (h : p ≠ .paused) : p.awake = p := by
  cases p <;> first | rfl | exact absurd rfl h

/-- A phase and the same without pauses differ by a pause at most. -/
theorem awake_cases (p : Phase) : p.awake = p ∨ p = .paused ∧ p.awake = .running := by
  cases p <;> first | exact Or.inl rfl | exact Or.inr ⟨rfl, rfl⟩

/-- All commands but a stop are about pauses. -/
theorem awake_after {p q : Phase} {c : Command} (hc : c ≠ .stop) (h : p.after c = some q) :
    q ≠ .stopped ∧ q.awake = p.awake := by
  cases p <;> cases c <;> cases h <;> first | exact absurd rfl hc | exact ⟨nofun, rfl⟩

theorem eq_stopped_of_after_stop {p q : Phase} (h : p.after .stop = some q) : q = .stopped := by
  cases p <;> cases h <;> rfl

theorem after_stop_awake (p : Phase) : p.awake.after .stop = p.after .stop := by
  cases p <;> rfl

end Phase

/-- Whether a call starts or ends a pause or falls into one. -/
def Entry.isPausing (r : Entry) : Bool :=
  match r.call with
  | .command .pause | .command .resume => true
  | .quantum .. => r.found = .paused
  | _ => false

namespace Framer

variable {σ : Type}

/-- The framer without pauses, after so many callbacks. -/
def awake (f : Framer σ) (callbacks : Nat) : Framer σ :=
  { f with phase := f.phase.awake, callbacks := callbacks }

theorem awake_eq_self {f : Framer σ} (h : f.phase = .running) : f.awake f.callbacks = f := by
  have hphase : f.phase.awake = f.phase := Phase.awake_eq_self (h ▸ nofun)
  rw [awake, hphase]

variable [Engine σ] {f : Framer σ}

theorem run_withCallbacks (f : Framer σ) (n : Nat) (h : Holdings) (frame : Nat)
    (input buffer : List Sample) :
    { f with callbacks := n }.run h frame input buffer =
      ⟨{ (f.run h frame input buffer).framer with callbacks := n },
        (f.run h frame input buffer).answer, (f.run h frame input buffer).events⟩ := by
  have hprogress : { f with callbacks := n }.progress h = f.progress h := rfl
  unfold run
  rw [hprogress]
  rcases (f.progress h).advance h.lease frame input with ⟨fault, p⟩
  cases fault with
  | some e => rfl
  | none =>
    simp only [deliver]
    split_ifs <;> rfl

/-- A callback does not look at the number of those before. -/
theorem quantum_withCallbacks (f : Framer σ) (n : Nat) (input buffer : List Sample) :
    { f with callbacks := n }.quantum input buffer =
      ⟨{ (f.quantum input buffer).framer with callbacks := n + 1 },
        (f.quantum input buffer).answer, (f.quantum input buffer).events⟩ := by
  by_cases hruns : f.phase = .running ∧ ∃ h, f.holdings = some h
  · obtain ⟨hphase, h, hsome⟩ := hruns
    rw [quantum_eq_run hphase hsome, quantum_eq_run (f := { f with callbacks := n }) hphase hsome,
      run_withCallbacks f (n + 1), run_withCallbacks f (f.callbacks + 1)]
    rfl
  · rw [quantum_of_not_runs hruns, quantum_of_not_runs (f := { f with callbacks := n }) hruns]

/-- A call of a pause does nothing but pause or go on, or it is a callback in between. -/
theorem awake_after_of_pausing {c : FramerCall} (h : (f.entry c).isPausing = true) (n : Nat) :
    (f.after c).awake n = f.awake n := by
  have hcommand : ∀ c, c ≠ .stop → (f.apply c).framer.awake n = f.awake n := by
    intro c hc
    rcases f.apply_eq c with happly | ⟨q, hafter, happly⟩
    · rw [happly]
    · obtain ⟨hstopped, hawake⟩ := Phase.awake_after hc hafter
      rw [happly, if_neg hstopped]
      simp only [awake, hawake]
  cases c with
  | start => cases h
  | command c =>
    refine hcommand c ?_
    rintro rfl
    cases h
  | stop => cases h
  | quantum input buffer =>
    have hpaused : f.phase = .paused := of_decide_eq_true h
    have hidle := (quantum_idle (f := f) (hpaused ▸ nofun) input buffer).1
    rw [after, hidle]
    rfl

/-- A call of a pause asks nothing of the engine, and if it is a callback, it gives the host its
input back. -/
theorem reply_of_pausing {c : FramerCall} (h : (f.entry c).isPausing = true) :
    (f.reply c).requests = [] ∧ ∀ input buffer, c = .quantum input buffer →
      f.reply c = ⟨.delivered ⟨true, passThrough input buffer.length⟩, [], []⟩ := by
  constructor
  · have hengine := congrArg Framer.engine (awake_after_of_pausing (f := f.recorded) h 0)
    have hjournal : (f.recorded.after c).engine.journal = [] := congrArg Recorded.journal hengine
    rw [reply, requests, Recorded.takeJournal, hjournal]
    rfl
  · rintro input buffer rfl
    have hpaused : f.phase = .paused := of_decide_eq_true h
    rw [reply_quantum_idle (by simp [hpaused]), hpaused]
    rfl

theorem release_awake (f : Framer σ) (n : Nat) : (f.awake n).release = f.release.awake n := by
  have hholdings : (f.awake n).holdings = f.holdings := rfl
  unfold release
  rw [hholdings]
  cases f.holdings with
  | none => rfl
  | some h => rfl

theorem apply_stop_awake (f : Framer σ) (n : Nat) :
    (f.awake n).apply .stop =
      ⟨(f.apply .stop).framer.awake n, (f.apply .stop).answer, (f.apply .stop).events⟩ := by
  have hphase : (f.awake n).phase.after .stop = f.phase.after .stop := f.phase.after_stop_awake
  unfold apply
  rw [hphase]
  cases hafter : f.phase.after .stop with
  | none => rfl
  | some q =>
    obtain rfl := Phase.eq_stopped_of_after_stop hafter
    dsimp only
    rw [if_pos rfl, if_pos rfl, f.release_awake]
    rfl

theorem quantum_awake (hphase : f.phase ≠ .paused) (n : Nat) (input buffer : List Sample) :
    (f.awake n).quantum input buffer =
      ⟨(f.quantum input buffer).framer.awake (n + 1), (f.quantum input buffer).answer,
        (f.quantum input buffer).events⟩ := by
  have hafter : (f.quantum input buffer).framer.phase ≠ .paused := by
    rcases f.phase_quantum input buffer with ⟨hsame, -⟩ | ⟨-, hbypassed, -⟩
    · rwa [hsame]
    · rw [hbypassed]
      nofun
  rw [awake, Phase.awake_eq_self hphase, quantum_withCallbacks, awake, Phase.awake_eq_self hafter]

/-- Any other call keeps the two framers together, and does not tell them apart. -/
theorem awake_after_of_kept {c : FramerCall} (hc : c ≠ .start)
    (h : (f.entry c).isPausing = false) (n : Nat) :
    (f.awake n).after c = (f.after c).awake (n + if c.isCallback then 1 else 0) ∧
      (f.awake n).answer c = f.answer c ∧ (f.awake n).eventsOf c = f.eventsOf c := by
  cases c with
  | start => exact absurd rfl hc
  | command c =>
    cases c with
    | stop =>
      dsimp only [after, answer, eventsOf]
      rw [f.apply_stop_awake]
      exact ⟨rfl, rfl, rfl⟩
    | pause => cases h
    | resume => cases h
  | stop => exact ⟨congrArg Outcome.framer (f.apply_stop_awake n), rfl, rfl⟩
  | quantum input buffer =>
    dsimp only [after, answer, eventsOf]
    rw [quantum_awake (of_decide_eq_false h)]
    exact ⟨rfl, rfl, rfl⟩

theorem reply_awake {c : FramerCall} (hc : c ≠ .start)
    (h : (f.entry c).isPausing = false) (n : Nat) :
    (f.awake n).reply c = f.reply c := by
  obtain ⟨-, hanswer, hevents⟩ := awake_after_of_kept hc h n
  have hrequests : (f.awake n).requests c = f.requests c := by
    have hengine := congrArg Framer.engine (awake_after_of_kept (f := f.recorded) hc h n).1
    exact congrArg (fun e => e.takeJournal.1) hengine
  rw [reply, hanswer, hevents, hrequests, reply]

/-! ## Sessions -/

/-- The framer that is always awake goes through the calls that are left. -/
theorem transcript_awake {calls : List FramerCall} (hcalls : .start ∉ calls) (f : Framer σ)
    (n : Nat) :
    let kept := (f.transcript calls).filter fun r => !r.isPausing
    ((f.awake n).transcript (kept.map Entry.call)).map Entry.reply = kept.map Entry.reply ∧
      (f.awake n).replay (kept.map Entry.call) =
        (f.replay calls).awake (n + kept.countP Entry.isCallback) := by
  induction calls generalizing f n with
  | nil => exact ⟨rfl, rfl⟩
  | cons c rest ih =>
    have hc : c ≠ .start := fun hstart => hcalls (hstart ▸ List.mem_cons_self)
    have hrest := ih (fun hstart => hcalls (List.mem_cons_of_mem c hstart)) (f.after c)
    cases hpausing : (f.entry c).isPausing with
    | true =>
      have hawake := awake_after_of_pausing hpausing n
      have hkept : (f.transcript (c :: rest)).filter (fun r => !r.isPausing) =
          ((f.after c).transcript rest).filter fun r => !r.isPausing := by
        rw [transcript, List.filter_cons_of_neg (by simp [hpausing])]
      rw [hkept, ← hawake]
      exact hrest n
    | false =>
      obtain ⟨hafter, -⟩ := awake_after_of_kept hc hpausing n
      have hkept : (f.transcript (c :: rest)).filter (fun r => !r.isPausing) =
          f.entry c :: ((f.after c).transcript rest).filter fun r => !r.isPausing := by
        rw [transcript, List.filter_cons_of_pos (by simp [hpausing])]
      obtain ⟨hreplies, hreplay⟩ := hrest (n + if c.isCallback then 1 else 0)
      rw [hkept]
      constructor
      · change (f.awake n).reply c :: (((f.awake n).after c).transcript _).map Entry.reply = _
        rw [reply_awake hc hpausing, hafter, hreplies]
        rfl
      · change ((f.awake n).after c).replay _ = ((f.after c).replay rest).awake _
        rw [hafter, hreplay, List.countP_cons, Nat.add_assoc, Nat.add_comm (List.countP ..)]
        rfl

/-- Pauses can be erased. Take any session of a framer that runs, with callbacks, pauses, resumes
and stops, and leave out all pauses and resumes and the callbacks that fall into a pause. All other
calls get the same reply: callbacks deliver the same and keep the host going or not, and events and
requests are the same. At the end the framer is the same, down to its engine, its rings and what is
left of the warm-up, except that one may pause where the other one runs, and that callbacks which
were left out are not counted. These gave the host its input back, and had no other effect. -/
theorem pauses_erasable {f : Framer σ} (hphase : f.phase = .running) {calls : List FramerCall}
    (hcalls : .start ∉ calls) :
    let session := f.transcript calls
    let kept := session.filter fun r => !r.isPausing
    let erased := session.filter Entry.isPausing
    let g := f.replay calls
    let g' := f.replay (kept.map Entry.call)
    (f.transcript (kept.map Entry.call)).map Entry.reply = kept.map Entry.reply ∧
    g' = { g with phase := g'.phase, callbacks := g'.callbacks } ∧
    (g'.phase = g.phase ∨ g.phase = .paused ∧ g'.phase = .running) ∧
    g.callbacks = g'.callbacks + erased.countP Entry.isCallback ∧
    ∀ r ∈ erased, r.reply.requests = [] ∧ ∀ input buffer, r.call = .quantum input buffer →
      r.reply = ⟨.delivered ⟨true, passThrough input buffer.length⟩, [], []⟩ := by
  intro session kept erased g g'
  obtain ⟨hreplies, hreplay⟩ := transcript_awake hcalls f f.callbacks
  rw [awake_eq_self hphase] at hreplies hreplay
  have hg' : g' = g.awake (f.callbacks + kept.countP Entry.isCallback) := hreplay
  refine ⟨hreplies, ?_, ?_, ?_, ?_⟩
  · rw [hg']
    rfl
  · rw [hg']
    exact g.phase.awake_cases
  · have hall : calls.countP FramerCall.isCallback = session.countP Entry.isCallback := by
      rw [← f.map_call_transcript calls, List.countP_map]
      rfl
    have hsplit : session.countP Entry.isCallback =
        erased.countP Entry.isCallback + kept.countP Entry.isCallback :=
      List.countP_eq_countP_filter_add session Entry.isCallback Entry.isPausing
    have hcount : g'.callbacks = f.callbacks + kept.countP Entry.isCallback := by rw [hg']; rfl
    rw [hcount, f.callbacks_replay, hall, hsplit]
    omega
  · intro r hr
    obtain ⟨hr, hpausing⟩ := List.mem_filter.mp hr
    refine forall_transcript (P := fun _ => True) (Q := fun r => r.isPausing = true →
      r.reply.requests = [] ∧ ∀ input buffer, r.call = .quantum input buffer →
        r.reply = ⟨.delivered ⟨true, passThrough input buffer.length⟩, [], []⟩) ?_ trivial r hr
      hpausing
    exact fun g _ c _ => ⟨reply_of_pausing, trivial⟩

/-- A pause in the warm-up, one in the middle of a frame, commands that do nothing, and a failure
after all of them. -/
theorem pauses_erasable_of_failure :
    let f := (started ⟨48000, 3, 2, 2⟩ fragileEngine).framer
    let calls : List FramerCall := [.command .pause, .quantum [.one, .one] [.one],
      .command .pause, .command .resume, .command .resume, .quantum [.one] [.one],
      .command .pause, .quantum [] [.one, .one], .command .resume, .quantum (Sample.silence 6) [],
      .quantum (Sample.silence 5) [.one], .command .pause, .quantum [.one] [.one]]
    let kept := (f.transcript calls).filter fun r => !r.isPausing
    let g' := f.replay (kept.map Entry.call)
    f.phase = .running ∧ .start ∉ calls ∧ kept.length = 4 ∧ g'.phase = .bypassed ∧
      (f.replay calls).callbacks = g'.callbacks + 2 ∧
      g' = { f.replay calls with callbacks := g'.callbacks } := by
  intro f calls kept g'
  have hphase : f.phase = .running := by decide +kernel
  have hcalls : .start ∉ calls := by simp [calls]
  obtain ⟨-, hframer, -, hcallbacks, -⟩ := pauses_erasable hphase hcalls
  have hbypassed : g'.phase = .bypassed := by decide +kernel
  have hbypassed' : (f.replay calls).phase = .bypassed := by decide +kernel
  have herased : ((f.transcript calls).filter Entry.isPausing).countP Entry.isCallback = 2 := by
    decide +kernel
  refine ⟨hphase, hcalls, by decide +kernel, hbypassed, ?_, ?_⟩
  · rw [hcallbacks, herased]
  · have hframer' : g' = { f.replay calls with phase := g'.phase, callbacks := g'.callbacks } :=
      hframer
    rw [hbypassed, ← hbypassed'] at hframer'
    exact hframer'

end Framer

end AudioFraming
