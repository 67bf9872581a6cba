import AudioFraming.Proofs.Framer.LifeCycle
import AudioFraming.Proofs.Link.Delivery

/-!
# What the readback shows

A readback is written at two times. An overflow or an underflow is counted as soon as its
event goes through the link, and the rest is copied from the framer after a callback.
Either way a call on the link updates the readback by what has happened in that call
(`readback_after`), and updates add up, so that a readback always shows the framer as the
latest callback has left it, and counts all events that went through.

From this it follows that a readback never goes back, since the framer behind it never
does, and that its counts are those of the rings, unless calls around the link have made
the rings count something else.
-/

namespace AudioFraming

/-! ## Framers never go back -/

namespace Progress

variable {σ : Type} [Engine σ]

theorem frames_pass (p : Progress σ) (lease : Lease) (frame : Nat) :
    p.frames ≤ (p.pass lease frame).2.frames := by
  unfold pass
  split
  · exact Nat.le_refl _
  · rename_i q hload
    have hframes : q.frames = p.frames := by
      unfold load at hload
      dsimp only at hload
      split at hload
      · cases hload
      · split at hload
        · cases hload
        · obtain rfl := Except.ok.inj hload
          rfl
    split
    · exact hframes.ge
    · dsimp only
      split
      · exact hframes.ge
      · exact hframes.ge.trans (Nat.le_succ _)

theorem frames_advance (p : Progress σ) (lease : Lease) (frame : Nat) (block : List Sample) :
    p.frames ≤ (p.advance lease frame block).2.frames := by
  refine advance_induction (P := fun q => p.frames ≤ q.frames) ?_ ?_
  · exact fun q hq _ => hq.trans (q.frames_pass lease frame)
  · unfold absorb
    dsimp only
    split <;> exact Nat.le_refl _

end Progress

namespace Framer

variable {σ : Type} [Engine σ]

theorem frames_quantum (f : Framer σ) (input buffer : List Sample) :
    f.frames ≤ (f.quantum input buffer).framer.frames := by
  cases f.quantum_case input buffer with
  | idle hruns heq => rw [heq]
  | fails h p e hphase hsome hadvance heq =>
    have hframes := (f.progress h).frames_advance h.lease f.engineFrame.toNat input
    rw [hadvance] at hframes
    rw [heq]
    exact hframes
  | delivers h p ring hphase hsome hadvance hframer =>
    have hframes := (f.progress h).frames_advance h.lease f.engineFrame.toNat input
    rw [hadvance] at hframes
    rw [hframer]
    exact hframes

theorem frames_after (f : Framer σ) (c : FramerCall) : f.frames ≤ (f.after c).frames := by
  have happly : ∀ c, f.frames ≤ (f.apply c).framer.frames := by
    intro c
    obtain ⟨e, q, held, happly⟩ := f.exists_apply_eq c
    rw [happly]
  cases c with
  | start =>
    rcases f.start_eq with ⟨e, fault, hstart⟩ | ⟨e, h, left, logs, hstart⟩ <;> rw [after, hstart]
  | command c => exact happly c
  | stop => exact happly .stop
  | quantum input buffer => exact f.frames_quantum input buffer

/-- The framer has come at least as far as it has been seen to come. -/
structure Past (callbacks frames : Nat) (phase : Phase) (f : Framer σ) : Prop where
  callbacks_le : callbacks ≤ f.callbacks
  frames_le : frames ≤ f.frames
  stopped : phase = .stopped → f.phase = .stopped

namespace Past

variable {callbacks frames : Nat} {phase : Phase} {f : Framer σ}

theorem after (h : f.Past callbacks frames phase) (c : FramerCall) :
    (f.after c).Past callbacks frames phase where
  callbacks_le := by
    rw [callbacks_after]
    exact h.callbacks_le.trans (Nat.le_add_right _ _)
  frames_le := h.frames_le.trans (f.frames_after c)
  stopped hphase := stopped_after (h.stopped hphase) c

theorem replay (h : f.Past callbacks frames phase) (calls : List FramerCall) :
    (f.replay calls).Past callbacks frames phase := by
  induction calls generalizing f with
  | nil => exact h
  | cons c rest ih => exact ih (h.after c)

end Past

end Framer

/-! ## Updates -/

namespace Readback

variable {σ : Type}

/-- The readback after some events, and after a callback if there is one. -/
def update (r : Readback) (latest : Option (Framer σ)) (events : List Event) : Readback where
  phase := (latest.map Framer.phase).getD r.phase
  callbacks := (latest.map Framer.callbacks).getD r.callbacks
  frames := (latest.map Framer.frames).getD r.frames
  overflows := r.overflows + events.countP Event.isOverflow
  underflows := r.underflows + events.countP Event.isUnderflow
  vad := (latest.map Framer.vad).getD r.vad

/-- Of two callbacks the later one shows. -/
theorem update_update (r : Readback) (latest later : Option (Framer σ))
    (events more : List Event) :
    (r.update latest events).update later more =
      r.update (later.or latest) (events ++ more) := by
  cases later <;> simp [update, List.countP_append, Nat.add_assoc]

/-- A later readback shows as much, and no way back from a stop. -/
structure Before (r later : Readback) : Prop where
  callbacks_le : r.callbacks ≤ later.callbacks
  frames_le : r.frames ≤ later.frames
  overflows_le : r.overflows ≤ later.overflows
  underflows_le : r.underflows ≤ later.underflows
  stopped : r.phase = .stopped → later.phase = .stopped

theorem Before.refl (r : Readback) : r.Before r :=
  ⟨Nat.le_refl _, Nat.le_refl _, Nat.le_refl _, Nat.le_refl _, id⟩

theorem Before.trans {r s t : Readback} (h : r.Before s) (h' : s.Before t) : r.Before t :=
  ⟨h.callbacks_le.trans h'.callbacks_le, h.frames_le.trans h'.frames_le,
    h.overflows_le.trans h'.overflows_le, h.underflows_le.trans h'.underflows_le,
    h'.stopped ∘ h.stopped⟩

/-- A readback that a framer has passed comes before all it can be updated to by that framer. -/
theorem before_update {r : Readback} {latest : Option (Framer σ)}
    (h : ∀ f, latest = some f → f.Past r.callbacks r.frames r.phase) (events : List Event) :
    r.Before (r.update latest events) := by
  cases latest with
  | none =>
    exact ⟨Nat.le_refl _, Nat.le_refl _, Nat.le_add_right _ _, Nat.le_add_right _ _, id⟩
  | some f =>
    have hpast := h f rfl
    exact ⟨hpast.callbacks_le, hpast.frames_le, Nat.le_add_right _ _, Nat.le_add_right _ _,
      hpast.stopped⟩

end Readback

namespace Link

variable {σ : Type}

theorem readback_emit (l : Link σ) (e : Event) :
    (l.emit e).readback = l.readback.update (none : Option (Framer σ)) [e] := by
  unfold emit
  dsimp only
  cases e <;> split <;> rfl

theorem readback_emitAll (l : Link σ) (events : List Event) :
    (l.emitAll events).readback = l.readback.update (none : Option (Framer σ)) events := by
  induction events generalizing l with
  | nil => rfl
  | cons e rest ih =>
    rw [emitAll_cons, ih, readback_emit, Readback.update_update]
    rfl

variable [Engine σ]

/-- The framer as a callback through the link leaves it. -/
def served? (l : Link σ) (c : LinkCall) : Option (Framer σ) :=
  match c with
  | .process .. => (l.after c).audio
  | _ => none

/-- A call on a link updates its readback. -/
theorem readback_after (l : Link σ) (c : LinkCall) :
    (l.after c).readback =
      l.readback.update (l.served? c) (c.emitted l.audio l.commands) := by
  have idle {m : Link σ} (hrelayed : c.relayed l.commands = []) (hserved : l.served? c = none)
      (hm : m.readback = l.readback) :
      m.readback = l.readback.update (l.served? c) (c.emitted l.audio l.commands) := by
    rw [LinkCall.emitted_of_relayed hrelayed, hserved, hm]
    rfl
  cases c with
  | process input buffer =>
    cases haudio : l.audio with
    | none =>
      have hserved : l.served? (.process input buffer) = none := by
        rw [served?, audio_after_of_none haudio]
      rw [hserved, after, process_of_none haudio]
      rfl
    | some f =>
      rw [served?, after, process_eq haudio]
      dsimp only
      rw [audio_emitAll, readback_emitAll]
      rfl
  | drain =>
    cases haudio : l.audio with
    | none =>
      rw [after, applyCommands_of_none haudio]
      rfl
    | some f =>
      have hcalls : LinkCall.drain.relayed l.commands = l.waiting := List.append_nil _
      rw [after, applyCommands_eq haudio, readback_emitAll, LinkCall.emitted, hcalls]
      rfl
  | send c =>
    apply idle rfl rfl
    simp only [after, send]
    split_ifs <;> rfl
  | post text =>
    apply idle rfl rfl
    simp only [after, post, send]
    cases Command.ofText text with
    | error fault => simp
    | ok c => split_ifs <;> rfl
  | poll =>
    apply idle rfl rfl
    simp only [after, poll]
    split_ifs <;> rfl
  | readback => exact idle rfl rfl rfl
  | direct call => exact idle rfl rfl rfl
  | dropAudio => exact idle rfl rfl rfl
  | dropControl => exact idle rfl rfl rfl

/-! ## Sessions -/

/-- The link after a session. -/
def replay (l : Link σ) (calls : List LinkCall) : Link σ := calls.foldl after l

/-- The framer as the latest callback of a session has left it, if there was one. -/
def shown (l : Link σ) : List LinkCall → Option (Framer σ)
  | [] => none
  | c :: rest => ((l.after c).shown rest).or (l.served? c)

/-- The events that go through the link in a session, whether there is room for them or not. -/
def sentBack (l : Link σ) : List LinkCall → List Event
  | [] => []
  | c :: rest => c.emitted l.audio l.commands ++ (l.after c).sentBack rest

theorem replay_append (l : Link σ) (calls later : List LinkCall) :
    l.replay (calls ++ later) = (l.replay calls).replay later :=
  List.foldl_append ..

theorem readback_replay (l : Link σ) (calls : List LinkCall) :
    (l.replay calls).readback = l.readback.update (l.shown calls) (l.sentBack calls) := by
  induction calls generalizing l with
  | nil => rfl
  | cons c rest ih =>
    have hrest := ih (l.after c)
    rw [readback_after, Readback.update_update] at hrest
    exact hrest

/-! ## Never back -/

/-- The framer behind a link has come at least as far as its readback shows. -/
def Ahead (l : Link σ) : Prop :=
  ∀ f, l.audio = some f →
    f.Past l.readback.callbacks l.readback.frames l.readback.phase

namespace Ahead

variable {l : Link σ}

theorem audio_after (h : l.Ahead) (c : LinkCall) :
    ∀ g, (l.after c).audio = some g →
      g.Past l.readback.callbacks l.readback.frames l.readback.phase := by
  intro g hg
  cases haudio : l.audio with
  | none =>
    rw [audio_after_of_none haudio] at hg
    cases hg
  | some f =>
    by_cases hc : c = .dropAudio
    · subst hc
      cases hg
    · rw [(takesTurn haudio hc).audio_eq] at hg
      obtain rfl := Option.some.inj hg
      exact (h f haudio).replay _

theorem served (h : l.Ahead) (c : LinkCall) :
    ∀ g, l.served? c = some g →
      g.Past l.readback.callbacks l.readback.frames l.readback.phase := by
  intro g hg
  cases c with
  | process input buffer => exact h.audio_after _ g hg
  | _ => cases hg

theorem after (h : l.Ahead) (c : LinkCall) : (l.after c).Ahead := by
  intro g hg
  rw [readback_after]
  cases c with
  | process input buffer =>
    -- The readback shows just this framer.
    rw [served?, hg]
    exact ⟨Nat.le_refl _, Nat.le_refl _, id⟩
  | _ => exact h.audio_after _ g hg

theorem replay (h : l.Ahead) (calls : List LinkCall) : (l.replay calls).Ahead := by
  induction calls generalizing l with
  | nil => exact h
  | cons c rest ih => exact ih (h.after c)

theorem before_replay (h : l.Ahead) (calls : List LinkCall) :
    l.readback.Before (l.replay calls).readback := by
  induction calls generalizing l with
  | nil => exact .refl _
  | cons c rest ih =>
    have hstep : l.readback.Before (l.after c).readback := by
      rw [readback_after]
      exact Readback.before_update (h.served c) _
    exact hstep.trans (ih (h.after c))

end Ahead

/-! ## The counts of the rings -/

/-- The readback has counted what the rings of the framer have counted. -/
def Counted (l : Link σ) : Prop :=
  ∀ f, l.audio = some f → f.Lapses l.readback.overflows l.readback.underflows

theorem relayed_eq_calls {c : LinkCall} (hc : ∀ call, c ≠ .direct call)
    (waiting : List Command) : c.relayed waiting = (c.turn waiting).calls := by
  cases c with
  | direct call => exact absurd rfl (hc call)
  | _ => rfl

theorem Counted.after {l : Link σ} (h : l.Counted) {c : LinkCall}
    (hc : ∀ call, c ≠ .direct call) : (l.after c).Counted := by
  intro g hg
  cases haudio : l.audio with
  | none =>
    rw [audio_after_of_none haudio] at hg
    cases hg
  | some f =>
    by_cases hdrop : c = .dropAudio
    · subst hdrop
      cases hg
    · rw [(takesTurn haudio hdrop).audio_eq] at hg
      obtain rfl := Option.some.inj hg
      have hlapses := (h f haudio).replay (c.turn l.commands).calls
      rw [readback_after, haudio, LinkCall.emitted, relayed_eq_calls hc]
      exact hlapses

theorem Counted.replay {l : Link σ} (h : l.Counted) {calls : List LinkCall}
    (hcalls : ∀ call, .direct call ∉ calls) : (l.replay calls).Counted := by
  induction calls generalizing l with
  | nil => exact h
  | cons c rest ih =>
    have hc : ∀ call, c ≠ .direct call := fun call hdirect =>
      hcalls call (hdirect ▸ List.mem_cons_self)
    exact ih (h.after hc) fun call hdirect => hcalls call (List.mem_cons_of_mem c hdirect)

/-- A readback is faithful and never goes back. Take a link around a framer that is new or has just
been started, and any session of both sides. The readback shows the phase, the counts and the
engine's answer of the framer as the latest callback through the link has left it, whatever has
happened since, and before the first one the phase that the link was made with, and zeros. It counts
all overflows and underflows among the events that went through the link, whether they were polled,
wait or were dropped. No later readback shows less, nor another phase after a stop. As long as
nothing was called around the link and the framer has its rings, the counts are those of the rings:
the overflows of both, and the underflows of the one that the host pulls from. -/
theorem readback_faithful {sizing : Sizing} {s : σ} {f : Framer σ}
    (hf : f = .new sizing s ∨ f = (Framer.started sizing s).framer) (calls : List LinkCall) :
    let l := (ofFramer f).replay calls
    l.readback = ({ phase := f.phase } : Readback).update ((ofFramer f).shown calls)
      ((ofFramer f).sentBack calls) ∧
    (∀ later, l.readback.Before ((ofFramer f).replay (calls ++ later)).readback) ∧
    ((∀ call, .direct call ∉ calls) → ∀ g h, l.audio = some g → g.holdings = some h →
      l.readback.overflows = h.input.tally.overflows + h.output.tally.overflows ∧
        l.readback.underflows = h.output.tally.underflows) := by
  intro l
  refine ⟨(ofFramer f).readback_replay calls, ?_, ?_⟩
  · intro later
    have hstart : (ofFramer f).Ahead := by
      intro g hg
      obtain rfl := Option.some.inj hg
      exact ⟨Nat.zero_le _, Nat.zero_le _, id⟩
    rw [replay_append]
    exact (hstart.replay calls).before_replay later
  · intro hcalls g h hg hsome
    have hnew : (Framer.new sizing s).Lapses 0 0 := ⟨nofun, fun _ => ⟨rfl, rfl⟩⟩
    have hstart : (ofFramer f).Counted := by
      intro g hg
      obtain rfl := Option.some.inj hg
      rcases hf with rfl | rfl
      · exact hnew
      · exact hnew.start
    obtain ⟨hover, hunder⟩ := (hstart.replay hcalls g hg).rings h hsome
    exact ⟨hover.symm, hunder.symm⟩

/-- An overflow and an underflow, then a pause that no callback has seen yet, and a stop. -/
theorem readback_faithful_of_pause :
    let f := (Framer.started ⟨48000, 3, 2, 2⟩ Framer.fragileEngine).framer
    let calls : List LinkCall := [.process (Sample.silence 6) [], .process (Sample.silence 1) [],
      .process [.one] (Sample.silence 7), .send .pause, .drain, .poll]
    let l := (ofFramer f).replay calls
    (f = .new ⟨48000, 3, 2, 2⟩ Framer.fragileEngine ∨
        f = (Framer.started ⟨48000, 3, 2, 2⟩ Framer.fragileEngine).framer) ∧
      l.audio.map Framer.phase = some .paused ∧ l.readback = ⟨.running, 3, 4, 1, 1, .one⟩ ∧
      (∃ g h, l.audio = some g ∧ g.holdings = some h ∧ h.output.tally.underflows = 1 ∧
        h.input.tally.overflows + h.output.tally.overflows = 1) ∧
      l.readback.Before ((ofFramer f).replay (calls ++ [.send .stop, .process [] []])).readback := by
  intro f calls l
  have hf : f = .new ⟨48000, 3, 2, 2⟩ Framer.fragileEngine ∨
      f = (Framer.started ⟨48000, 3, 2, 2⟩ Framer.fragileEngine).framer := Or.inr rfl
  obtain ⟨hshows, hbefore, hrings⟩ := readback_faithful hf calls
  have hreadback : ((ofFramer f).replay calls).readback = ⟨.running, 3, 4, 1, 1, .one⟩ := by
    rw [hshows]
    decide +kernel
  have hpaused : l.audio.map Framer.phase = some .paused := by decide +kernel
  refine ⟨hf, hpaused, hreadback, ?_, hbefore _⟩
  obtain ⟨g, hg, -⟩ := Option.map_eq_some_iff.mp hpaused
  have hholds : (l.audio.bind Framer.holdings).isSome := by decide +kernel
  obtain ⟨h, hsome⟩ := Option.isSome_iff_exists.mp hholds
  rw [hg] at hsome
  have hdirect : ∀ call, .direct call ∉ calls := by simp [calls]
  obtain ⟨hover, hunder⟩ := hrings hdirect g h hg hsome
  rw [hreadback] at hover hunder
  exact ⟨g, h, hg, hsome, hunder.symm, hover.symm⟩

end Link

end AudioFraming
