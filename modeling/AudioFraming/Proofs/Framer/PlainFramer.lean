import AudioFraming.Proofs.Arena.Views
import AudioFraming.Proofs.Framer.Failure
import AudioFraming.Proofs.SampleRing.PlainRing

/-!
# Framers without guarantees

A `PlainFramer` has the fields of a framer over plain rings, and its callback checks every step:
each slice of the arena, of a buffer or of a ring must lie in range, a pull into a frame must be
complete, a processed frame must not be refused, and the loop over the frames must be over within
a given number of passes. Otherwise the callback has no result.

It always has one, whatever the engine answers (`quantum_safe`). The two rings share a capacity
that outlasts every call (`Twins`), and a frame is only begun if it waits in the one ring, so it
fits into the other. Nothing relates the frame size of the moment to that of the start, which the
spans were taken for.
-/

namespace AudioFraming

/-- The samples from position `first` up to position `stop`. -/
def cutOut? (samples : List Sample) (first stop : Nat) : Option (List Sample) :=
  if first ≤ stop ∧ stop ≤ samples.length then some ((samples.drop first).take (stop - first))
  else none

/-- Copies the input over the buffer as far as both go, and silence over the rest. -/
def passThrough? (input buffer : List Sample) : Option (List Sample) := do
  let n := min input.length buffer.length
  let target ← cutOut? buffer 0 n
  let source ← cutOut? input 0 n
  let rest ← cutOut? buffer n buffer.length
  if source.length = target.length then return source ++ Sample.silence rest.length else none

/-! ## Definitions -/

structure PlainProgress (σ : Type) where
  engine : σ
  input : PlainRing
  output : PlainRing
  frames : Nat
  vad : Sample
  events : List Event

structure PlainHoldings where
  input : PlainRing
  output : PlainRing
  lease : Lease

structure PlainFramer (σ : Type) where
  sizing : Sizing
  engine : σ
  phase : Phase
  holdings : Option PlainHoldings
  warmupLeft : Nat
  callbacks : Nat
  frames : Nat
  vad : Sample

/-- What a callback leads to, and how many frames it has begun. -/
structure PlainOutcome (σ : Type) where
  passes : Nat
  framer : PlainFramer σ
  answer : Delivery
  events : List Event

namespace PlainProgress

variable {σ : Type}

def absorb? (p : PlainProgress σ) (block : List Sample) :
    Option (Option SetupError × PlainProgress σ) := do
  let noted := if block = [] then p.events ++ [.emptyPush .input] else p.events
  match ← p.input.push? block with
  | (.refused e, _) => return (some e, { p with events := noted })
  | (_, ring) =>
    return (none, { p with
      input := ring
      events := noted ++ overflowEvents .input p.input.tally ring.tally })

/-- Queues a frame that the engine has made. The ring must take it. -/
def emit? (p : PlainProgress σ) (block : List Sample) : Option (PlainProgress σ) := do
  match ← p.output.push? block with
  | (.pushed _, ring) =>
    return { p with
      output := ring
      events := p.events ++ overflowEvents .output p.output.tally ring.tally }
  | _ => none

variable [Engine σ]

/-- Pulls a frame into the engine's arena. The pull must be complete. -/
def load? (p : PlainProgress σ) (lease : Lease) (frame : Nat) :
    Option (Except EngineError (PlainProgress σ)) := do
  let arena := Engine.arena p.engine
  match ← arena.view? lease.inputSpan.offset frame with
  | .error e => return .error e
  | .ok view =>
    match ← p.input.pull? (view.read arena.words) with
    | (.pulled count block, ring) =>
      if count = frame then
        let words ← view.write? arena.words 0 block
        let engine := Engine.withArena p.engine { arena with words := words }
        return .ok { p with engine := engine, input := ring }
      else none
    | _ => none

def pass? (p : PlainProgress σ) (lease : Lease) (frame : Nat) :
    Option (Option SetupError × PlainProgress σ) := do
  match ← p.load? lease frame with
  | .error e => return (some (.engine e), p)
  | .ok p =>
    match Engine.processFrame p.engine lease.handle lease.outputSpan.offset
        lease.inputSpan.offset with
    | (.error e, engine) => return (some (.engine e), { p with engine := engine })
    | (.ok vad, engine) =>
      let p := { p with engine := engine, vad := vad }
      match ← (Engine.arena engine).view? lease.outputSpan.offset frame with
      | .error e => return (some (.engine e), p)
      | .ok view =>
        let emitted ← p.emit? (view.read (Engine.arena engine).words)
        return (none, { emitted with frames := p.frames + 1 })

/-- Sends frames through the engine as long as a whole one waits, and counts them, the one that is
lost included. The loop must be over after `limit` frames. -/
def loop? (lease : Lease) (frame : Nat) :
    Nat → PlainProgress σ → Option (Nat × Option SetupError × PlainProgress σ)
  | 0, p => if frame ≤ p.input.available then none else some (0, none, p)
  | limit + 1, p =>
    if frame ≤ p.input.available then do
      match ← p.pass? lease frame with
      | (some e, p) => return (1, some e, p)
      | (none, p) =>
        let (passes, fault, p) ← loop? lease frame limit p
        return (passes + 1, fault, p)
    else some (0, none, p)

def advance? (limit : Nat) (p : PlainProgress σ) (lease : Lease) (frame : Nat)
    (block : List Sample) : Option (Nat × Option SetupError × PlainProgress σ) := do
  match ← p.absorb? block with
  | (some e, p) => return (0, some e, p)
  | (none, p) => p.loop? lease frame limit

end PlainProgress

namespace PlainFramer

variable {σ : Type}

def progress (f : PlainFramer σ) (h : PlainHoldings) : PlainProgress σ :=
  ⟨f.engine, h.input, h.output, f.frames, f.vad, []⟩

def adopt (f : PlainFramer σ) (lease : Lease) (p : PlainProgress σ) : PlainFramer σ :=
  { f with
    engine := p.engine
    holdings := some ⟨p.input, p.output, lease⟩
    frames := p.frames
    vad := p.vad }

def fail? (f : PlainFramer σ) (lease : Lease) (passes : Nat) (p : PlainProgress σ)
    (e : SetupError) (input buffer : List Sample) : Option (PlainOutcome σ) := do
  let block ← passThrough? input buffer
  return {
    passes := passes
    framer :=
      { f.adopt lease { p with input := p.input.clear, output := p.output.clear } with
        phase := .bypassed }
    answer := ⟨true, block⟩
    events := p.events ++ [.ofFailure e, .phaseChanged .bypassed] }

def deliver? (f : PlainFramer σ) (lease : Lease) (passes : Nat) (p : PlainProgress σ)
    (buffer : List Sample) : Option (PlainOutcome σ) := do
  if 0 < f.warmupLeft then
    return ⟨passes, { f.adopt lease p with warmupLeft := f.warmupLeft - 1 },
      ⟨true, Sample.silence buffer.length⟩, p.events⟩
  else
    match ← p.output.pull? buffer with
    | (.pulled count block, ring) =>
      let f := f.adopt lease { p with output := ring }
      if count = 0 ∧ buffer ≠ [] then
        return ⟨passes, f, ⟨true, Sample.silence buffer.length⟩,
          p.events ++ [.underflow .output]⟩
      else return ⟨passes, f, ⟨true, block⟩, p.events⟩
    | _ => none

variable [Engine σ]

def run? (limit : Nat) (f : PlainFramer σ) (h : PlainHoldings) (frame : Nat)
    (input buffer : List Sample) : Option (PlainOutcome σ) := do
  match ← (f.progress h).advance? limit h.lease frame input with
  | (passes, some e, p) => f.fail? h.lease passes p e input buffer
  | (passes, none, p) => f.deliver? h.lease passes p buffer

/-- One callback with every step checked and the loop over the frames bounded. -/
def quantum? (limit : Nat) (f : PlainFramer σ) (input buffer : List Sample) :
    Option (PlainOutcome σ) := do
  let f := { f with callbacks := f.callbacks + 1 }
  match f.phase, f.holdings with
  | .running, some h => f.run? limit h (Engine.frameSize f.engine).toNat input buffer
  | phase, _ =>
    let block ← passThrough? input buffer
    return ⟨0, f, ⟨phase ≠ .stopped, block⟩, []⟩

end PlainFramer

namespace Progress

variable {σ : Type}

/-- The same, without what is known about the rings. -/
def plain (p : Progress σ) : PlainProgress σ :=
  ⟨p.engine, p.input.plain, p.output.plain, p.frames, p.vad, p.events⟩

end Progress

def Holdings.plain (h : Holdings) : PlainHoldings := ⟨h.input.plain, h.output.plain, h.lease⟩

def Framer.plain {σ : Type} (f : Framer σ) : PlainFramer σ :=
  ⟨f.sizing, f.engine, f.phase, f.holdings.map Holdings.plain, f.warmupLeft, f.callbacks,
    f.frames, f.vad⟩

/-! ## Slices of buffers -/

theorem cutOut?_eq_some {samples : List Sample} {first stop : Nat} (hle : first ≤ stop)
    (hstop : stop ≤ samples.length) :
    cutOut? samples first stop = some ((samples.drop first).take (stop - first)) :=
  if_pos ⟨hle, hstop⟩

theorem passThrough?_eq (input buffer : List Sample) :
    passThrough? input buffer = some (passThrough input buffer.length) := by
  have hin : min input.length buffer.length ≤ input.length := Nat.min_le_left ..
  have hbuf : min input.length buffer.length ≤ buffer.length := Nat.min_le_right ..
  have hlen : (input.take (min input.length buffer.length)).length =
      (buffer.take (min input.length buffer.length)).length := by
    rw [List.length_take_of_le hin, List.length_take_of_le hbuf]
  unfold passThrough?
  simp only [cutOut?_eq_some (Nat.zero_le _) hin, cutOut?_eq_some (Nat.zero_le _) hbuf,
    cutOut?_eq_some hbuf le_rfl, Option.bind_eq_bind, Option.bind_some, List.drop_zero,
    Nat.sub_zero, if_pos hlen]
  have hrest : ((buffer.drop (min input.length buffer.length)).take
      (buffer.length - min input.length buffer.length)).length =
      buffer.length - input.length := by
    rw [List.length_take, List.length_drop]
    omega
  have htake : input.take (min input.length buffer.length) = input.take buffer.length := by
    rw [Nat.min_comm, ← List.take_take, List.take_length]
  rw [hrest, htake]
  rfl

/-! ## Two rings of one capacity -/

/-- The rings of a framer: both have a given capacity, and the input ring has never been asked for
more than it had. -/
structure SampleRing.Twins (capacity : Nat) (input output : SampleRing) : Prop where
  input_capacity : input.capacity = capacity
  output_capacity : output.capacity = capacity
  underflows_eq : input.tally.underflows = 0

namespace SampleRing.Twins

variable {capacity n : Nat} {input output ring : SampleRing} {block : List Sample}

theorem ofCapacity (h : 0 < capacity) :
    Twins capacity (.ofCapacity capacity h) (.ofCapacity capacity h) :=
  ⟨capacity_ofCapacity .., capacity_ofCapacity .., rfl⟩

theorem push_input (h : Twins capacity input output) (hpush : input.push block = .ok (n, ring)) :
    Twins capacity ring output :=
  ⟨(capacity_push hpush).trans h.input_capacity, h.output_capacity,
    (overflows_push .input hpush).2.trans h.underflows_eq⟩

theorem push_output (h : Twins capacity input output)
    (hpush : output.push block = .ok (n, ring)) : Twins capacity input ring :=
  ⟨h.input_capacity, (capacity_push hpush).trans h.output_capacity, h.underflows_eq⟩

/-- A pull of what waits is complete, and so not an underflow. -/
theorem pull_input (h : Twins capacity input output) (hle : block.length ≤ input.available) :
    Twins capacity (input.pull block).ring output where
  input_capacity := (capacity_pull ..).trans h.input_capacity
  output_capacity := h.output_capacity
  underflows_eq := by
    rw [tally_pull, if_pos hle]
    exact h.underflows_eq

theorem clear (h : Twins capacity input output) : Twins capacity input.clear output.clear :=
  ⟨h.input_capacity, h.output_capacity, h.underflows_eq⟩

/-- Neither ring holds more than fits. -/
theorem available_le (h : Twins capacity input output) :
    input.available ≤ capacity ∧ output.available ≤ capacity := by
  have hin : input.available ≤ input.capacity := input.available_le
  have hout : output.available ≤ output.capacity := output.available_le
  exact ⟨h.input_capacity ▸ hin, h.output_capacity ▸ hout⟩

end SampleRing.Twins

namespace Progress

open SampleRing

variable {σ : Type} {p q : Progress σ} {capacity frame : Nat} {lease : Lease}
  {block : List Sample}

theorem twins_absorb (h : Twins capacity p.input p.output) (block : List Sample) :
    Twins capacity (p.absorb block).2.input (p.absorb block).2.output := by
  unfold absorb
  dsimp only
  split
  · exact h
  · rename_i hpush
    exact h.push_input hpush

theorem twins_emit (h : Twins capacity p.input p.output) :
    Twins capacity (p.emit block).input (p.emit block).output := by
  unfold emit
  split
  · exact h
  · rename_i hpush
    exact h.push_output hpush

theorem absorb?_plain (p : Progress σ) (block : List Sample) :
    p.plain.absorb? block = some ((p.absorb block).1, (p.absorb block).2.plain) := by
  have hpush := p.input.push?_plain block
  unfold PlainProgress.absorb? absorb
  simp only [plain, hpush]
  cases p.input.push block <;> rfl

theorem emit?_plain (p : Progress σ) {block : List Sample}
    (h : block.length ≤ p.output.capacity) : p.plain.emit? block = some (p.emit block).plain := by
  obtain ⟨ring, hpush⟩ := p.output.exists_push h
  have hpush' := p.output.push?_plain block
  unfold PlainProgress.emit? emit
  simp only [plain, hpush', hpush]
  rfl

variable [Engine σ]

theorem twins_load (h : Twins capacity p.input p.output) (hwaits : frame ≤ p.input.available)
    (hload : p.load lease frame = .ok q) : Twins capacity q.input q.output := by
  unfold load at hload
  dsimp only at hload
  split at hload
  · cases hload
  · rename_i stale hread
    split at hload
    · cases hload
    · obtain rfl := Except.ok.inj hload
      exact h.pull_input ((Arena.length_of_read hread).trans_le hwaits)

theorem twins_pass (lease : Lease) (h : Twins capacity p.input p.output)
    (hwaits : frame ≤ p.input.available) :
    Twins capacity (p.pass lease frame).2.input (p.pass lease frame).2.output := by
  unfold pass
  split
  · exact h
  · rename_i q hload
    have hq := twins_load h hwaits hload
    split
    · exact hq
    · rename_i vad engine hserve
      have hserved : Twins capacity { q with engine := engine, vad := vad }.input
          { q with engine := engine, vad := vad }.output := hq
      dsimp only
      split
      · exact hserved
      · exact twins_emit hserved

theorem twins_advance (h : Twins capacity p.input p.output) (lease : Lease) (frame : Nat)
    (block : List Sample) :
    Twins capacity (p.advance lease frame block).2.input
      (p.advance lease frame block).2.output :=
  advance_induction (P := fun p => Twins capacity p.input p.output) (fun _ => twins_pass lease)
    (twins_absorb h block)

/-! ## Checked steps -/

theorem load?_plain (hwaits : frame ≤ p.input.available) :
    p.plain.load? lease frame = some ((p.load lease frame).map plain) := by
  have hview := (Engine.arena p.engine).view?_eq lease.inputSpan.offset frame
  unfold PlainProgress.load? load Arena.read Arena.write
  simp only [plain, hview, Option.bind_eq_bind, Option.bind_some]
  cases hlocate : (Engine.arena p.engine).locate lease.inputSpan.offset frame with
  | error e => rfl
  | ok start =>
    obtain ⟨-, hroom⟩ := Arena.locate_eq_ok hlocate
    have hread : View.read ⟨start, frame⟩ (Engine.arena p.engine).words =
        (Engine.arena p.engine).words.read start frame := View.read_eq hroom
    have hlen := View.length_read ⟨start, frame⟩ (Engine.arena p.engine).words
    rw [hread] at hlen
    dsimp only at hlen
    have hpull := p.input.pull?_plain ((Engine.arena p.engine).words.read start frame)
    have hcount := p.input.count_pull ((Engine.arena p.engine).words.read start frame)
    have hblock := p.input.length_pull ((Engine.arena p.engine).words.read start frame)
    rw [hlen] at hblock
    rw [hlen, if_pos hwaits] at hcount
    simp only [Except.map, hread, hpull, Option.bind_some, hcount, if_true, View.write?, hblock,
      Nat.zero_add, le_refl, Nat.add_zero, Cells.cut_eq_take, List.take_of_length_le hblock.le]
    rfl

/-- A frame that waits is loaded as a whole, and fits into the output ring. -/
theorem pass?_plain (lease : Lease) (h : Twins capacity p.input p.output)
    (hwaits : frame ≤ p.input.available) :
    p.plain.pass? lease frame =
      some ((p.pass lease frame).1, (p.pass lease frame).2.plain) := by
  unfold PlainProgress.pass? pass
  simp only [load?_plain hwaits, Option.bind_eq_bind, Option.bind_some]
  cases hload : p.load lease frame with
  | error e => rfl
  | ok q =>
    have hq := twins_load h hwaits hload
    simp only [Except.map, plain]
    rcases hserve : Engine.processFrame q.engine lease.handle lease.outputSpan.offset
      lease.inputSpan.offset with ⟨e | vad, engine⟩
    · rfl
    · have hview := (Engine.arena engine).view?_eq lease.outputSpan.offset frame
      simp only [hview, Option.bind_some, Arena.read]
      cases hlocate : (Engine.arena engine).locate lease.outputSpan.offset frame with
      | error e => rfl
      | ok start =>
        obtain ⟨-, hroom⟩ := Arena.locate_eq_ok hlocate
        have hread : View.read ⟨start, frame⟩ (Engine.arena engine).words =
            (Engine.arena engine).words.read start frame := View.read_eq hroom
        have hlen := View.length_read ⟨start, frame⟩ (Engine.arena engine).words
        have hfits : frame ≤ capacity := hwaits.trans h.available_le.1
        have hemit := emit?_plain { q with engine := engine, vad := vad }
          ((hread ▸ hlen.le).trans (hfits.trans hq.output_capacity.ge))
        simp only [plain] at hemit
        simp only [Except.map, hread, hemit, Option.bind_some]
        rfl

section loop

variable {p q : PlainProgress σ}

theorem loop?_of_lt (h : p.input.available < frame) (limit : Nat) :
    p.loop? lease frame limit = some (0, none, p) := by
  cases limit <;> rw [PlainProgress.loop?, if_neg (Nat.not_le.mpr h)]

variable (hwaits : frame ≤ p.input.available)
include hwaits

theorem loop?_succ_of_lost {e : SetupError} (h : p.pass? lease frame = some (some e, q))
    (limit : Nat) : p.loop? lease frame (limit + 1) = some (1, some e, q) := by
  rw [PlainProgress.loop?, if_pos hwaits, h]
  rfl

theorem loop?_succ_of_passed {passes limit : Nat} {fault : Option SetupError}
    {r : PlainProgress σ} (h : p.pass? lease frame = some (none, q))
    (hrest : q.loop? lease frame limit = some (passes, fault, r)) :
    p.loop? lease frame (limit + 1) = some (passes + 1, fault, r) := by
  rw [PlainProgress.loop?, if_pos hwaits, h]
  simp only [Option.bind_eq_bind, Option.bind_some, hrest]
  rfl

end loop

/-- Each pass takes a frame out of what waits, so the loop is over in time. -/
theorem loop?_plain (lease : Lease) (hpos : 0 < frame) (fuel : Nat) (p : Progress σ)
    (h : Twins capacity p.input p.output) (hle : p.input.available ≤ fuel) :
    ∃ passes ≤ p.input.available / frame,
      ((p.drain lease frame fuel).1 = none → passes = p.input.available / frame) ∧
      ∀ limit, passes ≤ limit → p.plain.loop? lease frame limit =
        some (passes, (p.drain lease frame fuel).1, (p.drain lease frame fuel).2.plain) := by
  have hover : ∀ p : Progress σ, ¬frame ≤ p.input.available →
      ∃ passes ≤ p.input.available / frame,
        ((none : Option SetupError) = none → passes = p.input.available / frame) ∧
        ∀ limit, passes ≤ limit →
          p.plain.loop? lease frame limit = some (passes, none, p.plain) := by
    intro p hshort
    have hlt := Nat.not_le.mp hshort
    have hzero := Nat.div_eq_of_lt hlt
    exact ⟨0, Nat.zero_le _, fun _ => hzero.symm, fun limit _ => loop?_of_lt hlt limit⟩
  induction fuel generalizing p with
  | zero => exact hover p (by omega)
  | succ fuel ih =>
    unfold drain
    split_ifs with hwaits
    · have hpass? := pass?_plain lease h hwaits
      rcases hpass : p.pass lease frame with ⟨fault | fault, p'⟩
      · have hpasses : p.Passes lease frame p' := ⟨hwaits, hpass⟩
        have hless := hpasses.available_eq hpos
        have htwins := twins_pass lease h hwaits
        rw [hpass] at hpass? htwins
        obtain ⟨passes, hbound, hexact, hloop⟩ := ih p' htwins (by omega)
        have hdiv := Nat.div_eq_sub_div hpos hwaits
        rw [hless] at hbound hexact
        refine ⟨passes + 1, by omega, fun hnone => ?_, fun limit hlimit => ?_⟩
        · rw [hexact hnone, hdiv]
        · obtain ⟨limit, rfl⟩ := Nat.exists_eq_add_of_le' (Nat.le_of_add_left_le hlimit)
          exact loop?_succ_of_passed hwaits hpass? (hloop limit (Nat.le_of_succ_le_succ hlimit))
      · rw [hpass] at hpass?
        refine ⟨1, Nat.div_pos hwaits hpos, fun hnone => ?_, fun limit hlimit => ?_⟩
        · cases hnone
        · obtain ⟨limit, rfl⟩ := Nat.exists_eq_add_of_le' hlimit
          exact loop?_succ_of_lost hwaits hpass? limit
    · exact hover p hwaits

theorem advance?_plain (lease : Lease) (block : List Sample) (hpos : 0 < frame)
    (h : Twins capacity p.input p.output) :
    ∃ passes ≤ (p.absorb block).2.input.available / frame,
      ((p.advance lease frame block).1 = none →
        passes = (p.absorb block).2.input.available / frame) ∧
      ∀ limit, passes ≤ limit → p.plain.advance? limit lease frame block =
        some (passes, (p.advance lease frame block).1, (p.advance lease frame block).2.plain) := by
  have habsorb? := p.absorb?_plain block
  have htwins := twins_absorb h block
  unfold PlainProgress.advance? advance
  rcases habsorb : p.absorb block with ⟨fault | fault, q⟩
  · rw [habsorb] at habsorb? htwins
    obtain ⟨passes, hbound, hexact, hloop⟩ := loop?_plain lease hpos _ q htwins le_rfl
    dsimp only
    rw [passLimit, if_neg hpos.ne']
    refine ⟨passes, hbound, hexact, fun limit hlimit => ?_⟩
    simp only [habsorb?, Option.bind_eq_bind, Option.bind_some, hloop limit hlimit]
  · rw [habsorb] at habsorb?
    refine ⟨0, Nat.zero_le _, fun hnone => ?_, fun limit _ => ?_⟩
    · cases hnone
    · simp only [habsorb?, Option.bind_eq_bind, Option.bind_some]
      rfl

theorem available_lt_of_advance (hpos : 0 < frame)
    (h : p.advance lease frame block = (none, q)) : q.input.available < frame := by
  unfold advance at h
  split at h
  · cases h
  · rw [passLimit, if_neg hpos.ne'] at h
    obtain ⟨-, hmod⟩ := reaches_of_drain hpos _ _ le_rfl h
    exact hmod ▸ Nat.mod_lt _ hpos

end Progress

namespace Framer

open SampleRing

variable {σ : Type}

theorem fail?_plain (f : Framer σ) (lease : Lease) (passes : Nat) (p : Progress σ)
    (e : SetupError) (input buffer : List Sample) :
    f.plain.fail? lease passes p.plain e input buffer =
      some ⟨passes, (f.fail lease p e input buffer.length).framer.plain,
        (f.fail lease p e input buffer.length).answer,
        (f.fail lease p e input buffer.length).events⟩ := by
  unfold PlainFramer.fail?
  simp only [passThrough?_eq, Option.bind_eq_bind, Option.bind_some]
  rfl

theorem deliver?_plain (f : Framer σ) (lease : Lease) (passes : Nat) (p : Progress σ)
    (buffer : List Sample) :
    f.plain.deliver? lease passes p.plain buffer =
      some ⟨passes, (f.deliver lease p buffer).framer.plain, (f.deliver lease p buffer).answer,
        (f.deliver lease p buffer).events⟩ := by
  have hpull : p.plain.output.pull? buffer = _ := p.output.pull?_plain buffer
  unfold PlainFramer.deliver? deliver
  by_cases hleft : 0 < f.warmupLeft
  · have hleft' : 0 < f.plain.warmupLeft := hleft
    rw [if_pos hleft, if_pos hleft']
    rfl
  · have hleft' : ¬0 < f.plain.warmupLeft := hleft
    rw [if_neg hleft, if_neg hleft']
    simp only [hpull, Option.bind_eq_bind, Option.bind_some]
    split_ifs <;> rfl

variable [Engine σ]

theorem quantum?_of_not_runs {f : Framer σ}
    (hruns : ¬(f.phase = .running ∧ ∃ h, f.holdings = some h)) (limit : Nat)
    (input buffer : List Sample) :
    f.plain.quantum? limit input buffer = some ⟨0, (f.quantum input buffer).framer.plain,
      (f.quantum input buffer).answer, (f.quantum input buffer).events⟩ := by
  rw [quantum_of_not_runs hruns]
  unfold PlainFramer.quantum?
  simp only [plain, passThrough?_eq, Option.bind_eq_bind, Option.bind_some]
  split
  · rename_i hphase hsome
    obtain ⟨h, hsome, -⟩ := Option.map_eq_some_iff.mp hsome
    exact absurd ⟨hphase, h, hsome⟩ hruns
  · rfl

section run

variable {f : Framer σ} {h : Holdings} (hphase : f.phase = .running) (hsome : f.holdings = some h)
  {limit passes : Nat} {input : List Sample} {p : Progress σ}
include hphase hsome

theorem quantum?_eq_run? (buffer : List Sample) : f.plain.quantum? limit input buffer =
    { f with callbacks := f.callbacks + 1 }.plain.run? limit h.plain f.engineFrame.toNat input
      buffer := by
  unfold PlainFramer.quantum?
  simp only [plain, hphase, hsome, Option.map_some]
  rfl

/-- If the loop ends, so does the callback. -/
theorem quantum?_of_advance? {fault : Option SetupError}
    (hadvance : (f.progress h).advance h.lease f.engineFrame.toNat input = (fault, p))
    (hadvance? : (f.progress h).plain.advance? limit h.lease f.engineFrame.toNat input =
      some (passes, fault, p.plain)) (buffer : List Sample) :
    f.plain.quantum? limit input buffer = some ⟨passes, (f.quantum input buffer).framer.plain,
      (f.quantum input buffer).answer, (f.quantum input buffer).events⟩ := by
  have hprogress : { f with callbacks := f.callbacks + 1 }.plain.progress h.plain =
      (f.progress h).plain := rfl
  have hlease : h.plain.lease = h.lease := rfl
  rw [quantum?_eq_run? hphase hsome, PlainFramer.run?, hprogress, hlease]
  simp only [hadvance?, Option.bind_eq_bind, Option.bind_some]
  cases fault with
  | none =>
    rw [quantum_eq_deliver hphase hsome hadvance]
    exact deliver?_plain ..
  | some e =>
    rw [quantum_eq_fail hphase hsome hadvance]
    exact fail?_plain ..

end run

/-- All states that a framer can be brought to. Between its calls an engine may change in any way,
so it may ask for another frame size at each of them. -/
inductive Reachable : Framer σ → Prop
  | new (sizing : Sizing) (engine : σ) : Reachable (new sizing engine)
  | after {f : Framer σ} (h : Reachable f) (c : FramerCall) : Reachable (f.after c)
  | engine {f : Framer σ} (h : Reachable f) (e : σ) : Reachable { f with engine := e }

/-- The rings that are held, if any, have the capacity of the sizing. -/
def Paired (f : Framer σ) : Prop :=
  ∀ h, f.holdings = some h → Twins f.sizing.ringCapacity.toNat h.input h.output

omit [Engine σ] in
theorem Paired.of_eq {f f' : Framer σ} (hf : f.Paired) (hsizing : f'.sizing = f.sizing)
    (hholdings : f'.holdings = f.holdings) : f'.Paired := by
  intro h hsome
  rw [hsizing]
  exact hf h (hholdings.symm.trans hsome)

theorem Paired.start {f : Framer σ} (hf : f.Paired) : f.start.framer.Paired := by
  rcases f.start_eq with ⟨e, fault, hstart⟩ | ⟨e, h, left, logs, hstart⟩
  · rw [hstart]
    exact hf
  · obtain ⟨-, -, e, lease, hpos, -, hframer⟩ := exists_of_start_ok (congrArg (·.result) hstart)
    rw [hframer]
    rintro h ⟨⟩
    exact .ofCapacity hpos

theorem Paired.apply {f : Framer σ} (hf : f.Paired) (c : Command) :
    (f.apply c).framer.Paired := by
  rcases f.holdings_apply c with hholdings | hnone
  · exact hf.of_eq (f.sizing_apply c) hholdings
  · intro h hsome
    rw [hnone] at hsome
    cases hsome

theorem Paired.quantum {f : Framer σ} (hf : f.Paired) (input buffer : List Sample) :
    (f.quantum input buffer).framer.Paired := by
  cases f.quantum_case input buffer with
  | idle hruns heq =>
    rw [heq]
    exact hf
  | fails h p e hphase hsome hadvance heq =>
    have hp := Progress.twins_advance (p := f.progress h) (hf h hsome) h.lease
      f.engineFrame.toNat input
    rw [hadvance] at hp
    rw [heq]
    rintro h' ⟨⟩
    exact hp.clear
  | delivers h p ring hphase hsome hadvance hframer hgo hhands =>
    have hp := Progress.twins_advance (p := f.progress h) (hf h hsome) h.lease
      f.engineFrame.toNat input
    rw [hadvance] at hp
    rw [hframer]
    rintro h' ⟨⟩
    exact ⟨hp.input_capacity, hhands.capacity_eq.trans hp.output_capacity, hp.underflows_eq⟩

theorem Reachable.paired {f : Framer σ} (hf : f.Reachable) : f.Paired := by
  induction hf with
  | new sizing engine =>
    intro h hsome
    cases hsome
  | after _ c ih =>
    cases c with
    | start => exact ih.start
    | command c => exact ih.apply c
    | stop => exact ih.apply .stop
    | quantum input buffer => exact ih.quantum input buffer
  | engine _ e ih => exact ih

/-- A callback that does not fail leaves less than a frame behind. -/
theorem available_lt_of_quantum {f : Framer σ} {input buffer : List Sample} {h : Holdings}
    (hframe : 0 < f.engineFrame.toNat) (hphase : f.phase = .running)
    (hgoes : (f.quantum input buffer).framer.phase = .running)
    (hsome : (f.quantum input buffer).framer.holdings = some h) :
    h.input.available < f.engineFrame.toNat := by
  cases f.quantum_case input buffer with
  | idle hruns heq =>
    rw [heq] at hsome
    exact absurd ⟨hphase, h, hsome⟩ hruns
  | fails h p e hphase hsome hadvance heq =>
    rw [heq] at hgoes
    cases hgoes
  | delivers h' p ring hphase hsome' hadvance hframer hgo hhands =>
    rw [hframer] at hsome
    obtain rfl := Option.some.inj hsome
    exact Progress.available_lt_of_advance hframe hadvance

/-- What waits in the input ring once a block has been queued. -/
def filled (f : Framer σ) (h : Holdings) (block : List Sample) : Nat :=
  ((f.progress h).absorb block).2.input.available

/-- A callback that ends after so many passes of its loop, with every step in range. -/
structure Safe (f : Framer σ) (input buffer : List Sample) (passes : Nat) : Prop where
  /-- The callback passes every check as soon as it is granted these passes. -/
  checked : ∀ limit, passes ≤ limit → f.plain.quantum? limit input buffer =
    some ⟨passes, (f.quantum input buffer).framer.plain, (f.quantum input buffer).answer,
      (f.quantum input buffer).events⟩
  /-- No frame is begun twice, or before it is whole. -/
  passes_le : ∀ h, f.holdings = some h → passes ≤ f.filled h input / f.engineFrame.toNat
  /-- If nothing fails, none is left out. -/
  passes_eq : ∀ h, f.phase = .running → f.holdings = some h →
    (f.quantum input buffer).framer.phase = .running →
      passes = f.filled h input / f.engineFrame.toNat
  idle : ¬(f.phase = .running ∧ ∃ h, f.holdings = some h) → passes = 0
  /-- If nothing fails, less than a frame is left. -/
  available_lt : ∀ h, f.phase = .running → (f.quantum input buffer).framer.phase = .running →
    (f.quantum input buffer).framer.holdings = some h →
      h.input.available < f.engineFrame.toNat
  rings : ∀ h, (f.quantum input buffer).framer.holdings = some h →
    h.input.tally.underflows = 0 ∧
      h.input.available ≤ f.sizing.ringCapacity.toNat ∧
      h.output.available ≤ f.sizing.ringCapacity.toNat

/-- In every state, a callback during which the engine asks for a frame of a sample or more ends in
time and in range. It makes a pass for each whole frame that waits, unless one fails, and the rings
keep within the capacity they were made with. -/
theorem quantum_safe {f : Framer σ} (hf : f.Reachable) (hframe : 0 < f.engineFrame.toNat)
    (input buffer : List Sample) : ∃ passes, f.Safe input buffer passes := by
  have hrings : ∀ h, (f.quantum input buffer).framer.holdings = some h →
      h.input.tally.underflows = 0 ∧ h.input.available ≤ f.sizing.ringCapacity.toNat ∧
        h.output.available ≤ f.sizing.ringCapacity.toNat := by
    intro h hsome
    have htwins := hf.paired.quantum input buffer h hsome
    rw [sizing_quantum] at htwins
    exact ⟨htwins.underflows_eq, htwins.available_le⟩
  by_cases hruns : f.phase = .running ∧ ∃ h, f.holdings = some h
  · obtain ⟨hphase, h, hsome⟩ := hruns
    obtain ⟨passes, hle, hexact, hadvance?⟩ := Progress.advance?_plain (p := f.progress h)
      h.lease input hframe (hf.paired h hsome)
    have hunique : ∀ h', f.holdings = some h' → h' = h := fun h' hsome' =>
      Option.some.inj (hsome'.symm.trans hsome)
    rcases hadvance : (f.progress h).advance h.lease f.engineFrame.toNat input with ⟨fault, p⟩
    rw [hadvance] at hexact hadvance?
    refine ⟨passes, ?_, ?_, ?_, fun hidle => absurd ⟨hphase, h, hsome⟩ hidle,
      fun h' => available_lt_of_quantum hframe, hrings⟩
    · intro limit hlimit
      exact quantum?_of_advance? hphase hsome hadvance (hadvance? limit hlimit) buffer
    · intro h' hsome'
      obtain rfl := hunique h' hsome'
      exact hle
    · intro h' _ hsome' hgoes
      obtain rfl := hunique h' hsome'
      cases fault with
      | none => exact hexact rfl
      | some e =>
        rw [quantum_eq_fail hphase hsome hadvance] at hgoes
        cases hgoes
  · refine ⟨0, fun limit _ => quantum?_of_not_runs hruns limit input buffer,
      fun _ _ => Nat.zero_le _, ?_, fun _ => rfl, fun h => available_lt_of_quantum hframe, hrings⟩
    exact fun h hphase hsome => absurd ⟨hphase, h, hsome⟩ hruns

/-- Asks for longer frames once it has been given one. -/
def growingEngine : ScriptedEngine where
  inner := .ofMemory 4 16
  script := { resize := some (1, 6) }

/-- The engine starts with frames of four samples, and then takes two of six from a block of
thirteen. One sample is left, and the output ring is full. -/
theorem quantum_safe_of_growth :
    let f := (new ⟨48000, 4, 4, 3⟩ growingEngine).replay [.start, .quantum (Sample.silence 4) []]
    f.Reachable ∧ f.engineFrame = 6 ∧ f.Safe (Sample.silence 13) [] 2 ∧
      (f.quantum (Sample.silence 13) []).framer.buffered = some (1, 16) := by
  intro f
  have hf : f.Reachable := ((Reachable.new ⟨48000, 4, 4, 3⟩ growingEngine).after .start).after
    (.quantum (Sample.silence 4) [])
  have hframe : f.engineFrame = 6 := by decide +kernel
  obtain ⟨passes, hsafe⟩ := quantum_safe hf (by rw [hframe]; decide) (Sample.silence 13) []
  have hholds : f.holdings.isSome := by decide +kernel
  obtain ⟨h, hsome⟩ := Option.isSome_iff_exists.mp hholds
  have hpasses := hsafe.passes_eq h (by decide +kernel) hsome (by decide +kernel)
  have hfilled : f.holdings.map (f.filled · (Sample.silence 13)) = some 13 := by decide +kernel
  rw [hsome, Option.map_some, Option.some.injEq] at hfilled
  rw [hfilled, hframe] at hpasses
  obtain rfl : passes = 2 := hpasses
  exact ⟨hf, hframe, hsafe, by decide +kernel⟩

end Framer

end AudioFraming
