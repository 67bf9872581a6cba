import AudioFraming.Proofs.Framer.Recording

/-!
# Transcripts

A transcript lists the calls of a session, and for each one the phase that it found, the
phase that it left, and its reply: what its caller is answered, what it emits, and what it
asks of the engine. Properties of whole sessions are read off transcripts. One step takes
them there: what every call keeps, and grants while it is kept, every entry of a
transcript has (`forall_transcript`).
-/

namespace AudioFraming

/-- What a call answers its caller. -/
inductive Answer where
  | started (result : Except SetupError Unit)
  | applied (changed : Bool)
  /-- A stop that nobody is told of. -/
  | stopped
  | delivered (d : Delivery)

/-- All that a call lets be seen. -/
structure Reply where
  answer : Answer
  events : List Event
  requests : List EngineCall

structure Entry where
  call : FramerCall
  /-- The phase before the call. -/
  found : Phase
  /-- The phase after it. -/
  left : Phase
  reply : Reply

def FramerCall.isCallback : FramerCall → Bool
  | quantum .. => true
  | _ => false

def Entry.isCallback (r : Entry) : Bool := r.call.isCallback

namespace Framer

variable {σ : Type} [Engine σ]

def answer (f : Framer σ) : FramerCall → Answer
  | .start => .started f.start.result
  | .command c => .applied (f.apply c).answer
  | .stop => .stopped
  | .quantum input buffer => .delivered (f.quantum input buffer).answer

def reply (f : Framer σ) (c : FramerCall) : Reply := ⟨f.answer c, f.eventsOf c, f.requests c⟩

def entry (f : Framer σ) (c : FramerCall) : Entry := ⟨c, f.phase, (f.after c).phase, f.reply c⟩

def transcript (f : Framer σ) : List FramerCall → List Entry
  | [] => []
  | c :: rest => f.entry c :: (f.after c).transcript rest

theorem replay_cons (f : Framer σ) (c : FramerCall) (rest : List FramerCall) :
    f.replay (c :: rest) = (f.after c).replay rest := rfl

/-- A property that the calls of a session keep, and that makes their entries have another one,
gives all entries of its transcript that one. -/
theorem forall_transcript {P : Framer σ → Prop} {Q : Entry → Prop} {calls : List FramerCall}
    (hkeep : ∀ f, P f → ∀ c ∈ calls, Q (f.entry c) ∧ P (f.after c)) {f : Framer σ} (hf : P f) :
    ∀ r ∈ f.transcript calls, Q r := by
  induction calls generalizing f with
  | nil =>
    intro r hr
    cases hr
  | cons c rest ih =>
    obtain ⟨hentry, hafter⟩ := hkeep f hf c List.mem_cons_self
    intro r hr
    rcases List.mem_cons.mp hr with rfl | hr
    · exact hentry
    · exact ih (fun g hg d hd => hkeep g hg d (List.mem_cons_of_mem c hd)) hafter r hr

/-- What an entry passes on to all later calls relates it to all later entries. -/
theorem pairwise_transcript {P : Entry → Framer σ → Prop} {R : Entry → Entry → Prop}
    (hfirst : ∀ (f : Framer σ) c, P (f.entry c) (f.after c))
    (hkeep : ∀ r f, P r f → ∀ c, R r (f.entry c) ∧ P r (f.after c)) (f : Framer σ)
    (calls : List FramerCall) : (f.transcript calls).Pairwise R := by
  induction calls generalizing f with
  | nil => exact .nil
  | cons c rest ih =>
    refine .cons ?_ (ih (f.after c))
    exact forall_transcript (P := P (f.entry c)) (fun g hg d _ => hkeep _ g hg d) (hfirst f c)

/-- A session emits what the entries of its transcript say. -/
theorem flatMap_events_transcript (f : Framer σ) (calls : List FramerCall) :
    (f.transcript calls).flatMap (fun r => r.reply.events) = f.eventsDuring calls := by
  induction calls generalizing f with
  | nil => rfl
  | cons c rest ih =>
    rw [transcript, List.flatMap_cons, ih]
    rfl

theorem map_call_transcript (f : Framer σ) (calls : List FramerCall) :
    (f.transcript calls).map Entry.call = calls := by
  induction calls generalizing f with
  | nil => rfl
  | cons c rest ih =>
    rw [transcript, List.map_cons, ih]
    rfl

/-! ## Callbacks are counted -/

/-- A command is about the phase and what is held for it. -/
theorem exists_apply_eq (f : Framer σ) (c : Command) :
    ∃ e q held, (f.apply c).framer = { f with engine := e, phase := q, holdings := held } := by
  rcases f.apply_eq c with happly | ⟨q, -, happly⟩
  · rw [happly]
    exact ⟨_, _, _, rfl⟩
  · rw [happly]
    dsimp only [release]
    split_ifs
    · cases f.holdings with
      | none => exact ⟨_, _, _, rfl⟩
      | some h => exact ⟨_, _, _, rfl⟩
    · exact ⟨_, _, _, rfl⟩

theorem callbacks_quantum (f : Framer σ) (input buffer : List Sample) :
    (f.quantum input buffer).framer.callbacks = f.callbacks + 1 := by
  cases f.quantum_case input buffer with
  | idle hruns heq => rw [heq]
  | fails h p e hphase hsome hadvance heq =>
    rw [heq]
    rfl
  | delivers h p ring hphase hsome hadvance hframer => rw [hframer]

/-- Every callback counts, whatever the phase, and nothing else does. -/
theorem callbacks_after (f : Framer σ) (c : FramerCall) :
    (f.after c).callbacks = f.callbacks + if c.isCallback then 1 else 0 := by
  have happly : ∀ c, (f.apply c).framer.callbacks = f.callbacks := by
    intro c
    obtain ⟨e, q, held, happly⟩ := f.exists_apply_eq c
    rw [happly]
  cases c with
  | start =>
    rcases f.start_eq with ⟨e, fault, hstart⟩ | ⟨e, h, left, logs, hstart⟩ <;>
      · rw [after, hstart]
        rfl
  | command c => exact happly c
  | stop => exact happly .stop
  | quantum input buffer => exact f.callbacks_quantum input buffer

theorem callbacks_replay (f : Framer σ) (calls : List FramerCall) :
    (f.replay calls).callbacks = f.callbacks + calls.countP FramerCall.isCallback := by
  induction calls generalizing f with
  | nil => rfl
  | cons c rest ih =>
    rw [replay_cons, ih, callbacks_after, List.countP_cons]
    omega

/-! ## Calls that pass through -/

/-- A callback that does not reach the engine gives the host its input back. -/
theorem reply_quantum_idle {f : Framer σ} (hphase : f.phase ≠ .running)
    (input buffer : List Sample) :
    f.reply (.quantum input buffer) =
      ⟨.delivered ⟨f.phase ≠ .stopped, passThrough input buffer.length⟩, [], []⟩ := by
  have hpass := quantum_of_not_runs (fun hruns => hphase hruns.1) input buffer
  rw [reply, answer, eventsOf, requests_quantum_idle hphase, hpass]

end Framer

end AudioFraming
