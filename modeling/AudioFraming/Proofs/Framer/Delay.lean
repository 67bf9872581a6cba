import AudioFraming.Proofs.Callback.Blocks
import AudioFraming.Proofs.Framer.Callbacks

/-!
# A delay line

Between a host that always sends and fetches whole quanta and an identity engine, a
framer is a delay line. Its line holds the silence that the warm-up still owes,
followed by what waits in the rings; one quantum goes in at the end, one comes off
the front (`InStep.quantum`), and the line never grows or shrinks.

That a quantum can always come off the front is what the warm-up is for: the output
ring lacks only what waits in the input ring, which is less than the lag. That one can
always go in is what the ring capacity is for.
-/

namespace AudioFraming

namespace Framer

/-- After `k` quanta in and `k` quanta out. -/
structure InStep (before : IdentityEngine) (sizing : Sizing) (k : Nat) (h : Holdings)
    (f : Framer IdentityEngine) : Prop where
  runs : Runs before h f
  sized : h.Sized sizing before.frameSize
  input_tally : h.input.tally = {}
  output_tally : h.output.tally = {}
  warmupLeft_eq : f.warmupLeft = sizing.warmupQuanta.toNat - k
  length_waiting : h.waiting.length = min k sizing.warmupQuanta.toNat * sizing.quantum.toNat
  available_eq : h.input.available = k * sizing.quantum.toNat % sizing.frame.toNat
  frames_eq : f.frames = k * sizing.quantum.toNat / sizing.frame.toNat

/-- What the next callbacks will deliver. -/
def line (quantum : Nat) (h : Holdings) (f : Framer IdentityEngine) : List Sample :=
  Sample.silence (f.warmupLeft * quantum) ++ h.waiting

variable {before : IdentityEngine} {sizing : Sizing} {k : Nat} {h : Holdings}
  {f : Framer IdentityEngine}

namespace InStep

theorem frame_le (hf : InStep before sizing k h f) : sizing.frame.toNat ≤ 2 ^ 30 :=
  hf.sized.fits.frame_eq ▸ hf.runs.held.frameSize_le

theorem length_line (hf : InStep before sizing k h f) :
    (line sizing.quantum.toNat h f).length =
      sizing.warmupQuanta.toNat * sizing.quantum.toNat := by
  rw [line, List.length_append, Sample.length_silence, hf.length_waiting, hf.warmupLeft_eq,
    ← Nat.add_mul]
  congr 1
  omega

/-- Each ring has room for all that waits and one more quantum. -/
theorem room (hf : InStep before sizing k h f) :
    h.waiting.length + sizing.quantum.toNat ≤ sizing.ringCapacity.toNat := by
  have hbacklog := hf.sized.fits.backlog_le_ringCapacity hf.frame_le
  have hmin : (min k sizing.warmupQuanta.toNat + 1) * sizing.quantum.toNat ≤
      (sizing.warmupQuanta.toNat + 1) * sizing.quantum.toNat :=
    Nat.mul_le_mul_right _ (by omega)
  rw [hf.length_waiting, ← Nat.succ_mul]
  exact hmin.trans hbacklog

/-- A quantum goes in. -/
theorem advance (hf : InStep before sizing k h f) {input : List Sample}
    {p : Progress IdentityEngine} (hinput : input.length = sizing.quantum.toNat)
    (hadv : (f.progress h).Advances before.frameSize.toNat input p) :
    p.input.tally = {} ∧ p.output.tally = {} ∧ p.waiting = h.waiting ++ input ∧
      p.input.available = (k + 1) * sizing.quantum.toNat % sizing.frame.toNat ∧
      p.frames = (k + 1) * sizing.quantum.toNat / sizing.frame.toNat := by
  have hne : input ≠ [] := List.ne_nil_of_length_pos (hinput ▸ hf.sized.fits.quantum_pos)
  have hroom := hf.room
  rw [← hinput] at hroom
  obtain ⟨htin, htout, hwaiting⟩ := hadv.keeps hne
    (hroom.trans_eq hf.sized.input_capacity.symm) (hroom.trans_eq hf.sized.output_capacity.symm)
  have hfit : min h.input.capacity (h.input.available + input.length) =
      k * sizing.quantum.toNat % sizing.frame.toNat + sizing.quantum.toNat := by
    have hlen : h.waiting.length = h.output.available + h.input.available := by
      simp [Holdings.waiting]
    rw [hf.sized.input_capacity, ← hf.available_eq, ← hinput]
    omega
  have hsize : before.frameSize = sizing.frame := hf.sized.fits.frame_eq.symm
  have havail := hadv.available_eq
  have hframes := hadv.frames_eq
  change _ = min h.input.capacity (h.input.available + input.length) % _ at havail
  change _ = f.frames + min h.input.capacity (h.input.available + input.length) / _ at hframes
  rw [hfit, hsize] at havail hframes
  refine ⟨htin.trans hf.input_tally, htout.trans hf.output_tally, hwaiting, ?_, ?_⟩
  · rw [havail, Nat.mod_add_mod, Nat.succ_mul]
  · rw [hframes, hf.frames_eq, ← Nat.mul_add_div hf.sized.fits.frame_pos, ← Nat.add_assoc,
      Nat.div_add_mod, Nat.succ_mul]

/-- One quantum in, one quantum out. -/
theorem quantum (hf : InStep before sizing k h f) {input buffer : List Sample}
    (hinput : input.length = sizing.quantum.toNat)
    (hbuffer : buffer.length = sizing.quantum.toNat) :
    ∃ h', InStep before sizing (k + 1) h' (f.quantum input buffer).framer ∧
      (f.quantum input buffer).answer.keepGoing = true ∧
      (f.quantum input buffer).answer.block ++
          line sizing.quantum.toNat h' (f.quantum input buffer).framer =
        line sizing.quantum.toNat h f ++ input := by
  have hfit : input.length ≤ h.input.capacity := by
    have hroom := hf.room
    rw [hf.sized.input_capacity]
    omega
  obtain ⟨p, ring, hadv, hhands, hruns, hleft, hframes, hgo⟩ := hf.runs.quantum buffer hfit
  obtain ⟨htin, htout, hwaiting, havail, hcount⟩ := hf.advance hinput hadv
  have hlenp : p.waiting.length =
      (min k sizing.warmupQuanta.toNat + 1) * sizing.quantum.toNat := by
    rw [hwaiting, List.length_append, hf.length_waiting, hinput, Nat.succ_mul]
  generalize f.quantum input buffer = o at *
  have hstep (htally : ring.tally = {})
      (hlen : (Holdings.waiting ⟨p.input, ring, h.lease⟩).length =
        min (k + 1) sizing.warmupQuanta.toNat * sizing.quantum.toNat) :
      InStep before sizing (k + 1) ⟨p.input, ring, h.lease⟩ o.framer := by
    refine ⟨hruns, ?_, htin, htally, ?_, hlen, havail, hframes.trans hcount⟩
    · exact hf.sized.of_capacity_eq hadv.input_capacity
        (hhands.capacity_eq.trans hadv.output_capacity)
    · rw [hleft, hf.warmupLeft_eq, Nat.sub_sub]
  refine ⟨⟨p.input, ring, h.lease⟩, ?_⟩
  cases hhands with
  | warmup howed hring hblock hevents =>
    subst hring
    rw [hf.warmupLeft_eq] at howed
    refine ⟨hstep htout ?_, hgo, ?_⟩
    · refine hlenp.trans ?_
      congr 1
      omega
    · have howed' : sizing.quantum.toNat + (f.warmupLeft - 1) * sizing.quantum.toNat =
          f.warmupLeft * sizing.quantum.toNat := by
        rw [Nat.add_comm, ← Nat.succ_mul, hf.warmupLeft_eq]
        congr 1
        omega
      rw [hblock, hbuffer, line, hleft, line, ← List.append_assoc, List.append_assoc _ h.waiting,
        ← hwaiting, ← howed']
      simp only [Sample.silence, List.replicate_append_replicate]
      rfl
  | missed hpaid hlt =>
    -- The output ring lacks only what is left over in the input ring, less than the lag.
    have hresidue := hf.sized.fits.residue_le_lag (k + 1)
    have hlag := hf.sized.fits.warmup_bounds.1
    rw [Progress.length_waiting, havail] at hlenp
    rw [hf.warmupLeft_eq] at hpaid
    rw [Nat.min_eq_right (by omega), Nat.succ_mul sizing.warmupQuanta.toNat] at hlenp
    omega
  | filled hpaid hle hcapacity hlist htally hblock hevents =>
    have hout : o.answer.block ++ Holdings.waiting ⟨p.input, ring, h.lease⟩ = p.waiting := by
      rw [Holdings.waiting, hblock, hlist, ← List.append_assoc, List.take_append_drop]
      rfl
    refine ⟨hstep (htally.trans htout) ?_, hgo, ?_⟩
    · have hlen := congrArg List.length hout
      rw [List.length_append, hlenp, hblock, List.length_take, SampleRing.length_toList,
        Nat.min_eq_left hle, hbuffer, Nat.succ_mul] at hlen
      rw [hf.warmupLeft_eq] at hpaid
      have hmin : min (k + 1) sizing.warmupQuanta.toNat = min k sizing.warmupQuanta.toNat := by
        omega
      rw [hmin]
      omega
    · simp only [line, hleft, hpaid, Nat.zero_sub, Nat.zero_mul, Sample.silence,
        List.replicate_zero, List.nil_append]
      rw [hout, hwaiting]

/-- The line moves along by as many quanta as there are callbacks. -/
theorem renderBlocks : ∀ (inputs : List (List Sample)) (buffer : List Sample) (k : Nat)
    (h : Holdings) (f : Framer IdentityEngine), InStep before sizing k h f →
      (∀ b ∈ inputs, b.length = sizing.quantum.toNat) → buffer.length = sizing.quantum.toNat →
        ∃ h', InStep before sizing (k + inputs.length) h'
            (AudioCallback.renderBlocks inputs buffer f).2 ∧
          (AudioCallback.renderBlocks inputs buffer f).1 ++
              line sizing.quantum.toNat h' (AudioCallback.renderBlocks inputs buffer f).2 =
            line sizing.quantum.toNat h f ++ inputs.flatten := by
  intro inputs
  induction inputs with
  | nil =>
    intro buffer k h f hf hinputs hbuffer
    exact ⟨h, hf, by simp [AudioCallback.renderBlocks]⟩
  | cons input rest ih =>
    intro buffer k h f hf hinputs hbuffer
    have hinput := hinputs input (List.mem_cons_self ..)
    have hrest : ∀ b ∈ rest, b.length = sizing.quantum.toNat := by
      intro b hb
      exact hinputs b (List.mem_cons_of_mem _ hb)
    obtain ⟨h', hone, hgo, hline⟩ := hf.quantum hinput hbuffer
    have hlen := (f.length_quantum input buffer).trans hbuffer
    obtain ⟨h'', hall, hline'⟩ := ih _ _ _ _ hone hrest hlen
    have hcons : AudioCallback.renderBlocks (input :: rest) buffer f =
        ((f.quantum input buffer).answer.block ++
            (AudioCallback.renderBlocks rest (f.quantum input buffer).answer.block
              (f.quantum input buffer).framer).1,
          (AudioCallback.renderBlocks rest (f.quantum input buffer).answer.block
              (f.quantum input buffer).framer).2) := by
      simp only [AudioCallback.renderBlocks, AudioCallback.call, hgo, if_true]
    rw [hcons]
    refine ⟨h'', ?_, ?_⟩
    · rw [List.length_cons, Nat.add_comm rest.length, ← Nat.add_assoc]
      exact hall
    · rw [List.append_assoc, hline', ← List.append_assoc, hline, List.append_assoc,
        List.flatten_cons]

end InStep

/-- A framer that has just started over a new engine is in step. -/
theorem inStep_started (htidy : before.arena.Tidy)
    (hstart : (started sizing before).result = .ok ()) :
    ∃ h, InStep before sizing 0 h (started sizing before).framer ∧
      line sizing.quantum.toNat h (started sizing before).framer =
        Sample.silence (sizing.warmupQuanta.toNat * sizing.quantum.toNat) := by
  obtain ⟨lease, hpos, hruns, hfits, hleft, hframes⟩ := runs_started htidy hstart
  have hsized := Holdings.sized_ofCapacity hfits hpos lease
  refine ⟨_, ⟨hruns, hsized, rfl, rfl, hleft, ?_, ?_, ?_⟩, ?_⟩
  · simp [Holdings.waiting]
  · rw [Nat.zero_mul, Nat.zero_mod]
    rfl
  · rw [hframes, Nat.zero_mul, Nat.zero_div]
  · simp [line, hleft, Holdings.waiting]

/-- More silence than enough makes no difference. -/
theorem take_append_silence {xs : List Sample} {m n : Nat} (h : n ≤ xs.length + m) :
    (xs ++ Sample.silence m).take n = (xs ++ Sample.silence n).take n := by
  have hm : min (n - xs.length) m = n - xs.length := by omega
  have hn : min (n - xs.length) n = n - xs.length := by omega
  simp only [Sample.silence, List.take_append, List.take_replicate, hm, hn]

/-- A rendered signal comes after the silence of the latency. -/
theorem InStep.render_eq (hf : InStep before sizing 0 h f)
    (hline : line sizing.quantum.toNat h f =
      Sample.silence (sizing.warmupQuanta.toNat * sizing.quantum.toNat))
    (signal : List Sample) {length : Nat}
    (hlength : (blocks sizing.quantum.toNat signal).length * sizing.quantum.toNat = length)
    (hle : signal.length ≤ length) :
    (AudioCallback.render f signal sizing.quantum.toNat).1 =
      (Sample.silence sizing.latency.toNat ++ signal ++ Sample.silence length).take length := by
  have hblock : ∀ b ∈ blocks sizing.quantum.toNat signal, b.length = sizing.quantum.toNat := by
    intro b hb
    exact length_of_mem_blocks hb
  have hlatency := hf.sized.fits.toNat_latency hf.frame_le
  obtain ⟨h', hf', hrender⟩ :=
    InStep.renderBlocks _ _ _ _ _ hf hblock (Sample.length_silence sizing.quantum.toNat)
  rw [hline, ← hlatency, flatten_blocks hf.sized.fits.quantum_pos, hlength,
    ← List.append_assoc] at hrender
  change (AudioCallback.render f signal sizing.quantum.toNat).1 ++ _ = _ at hrender
  have hrendered : (AudioCallback.render f signal sizing.quantum.toNat).1.length = length := by
    have hsum := congrArg List.length hrender
    rw [List.length_append, hf'.length_line, ← hlatency] at hsum
    simp only [List.length_append, Sample.length_silence] at hsum
    omega
  rw [← List.take_left' hrendered, hrender]
  refine take_append_silence ?_
  rw [List.length_append]
  omega

/-- What is rendered is the signal, late by the latency. After any number of quanta the framer runs,
nothing has gone wrong in the rings, and they hold the quanta of the warm-up. -/
theorem render_delays (frameSize : UInt64) {samples : Nat} (hsamples : samples ≤ 2 ^ 30)
    {sizing : Sizing}
    (hstart : (started sizing (IdentityEngine.ofMemory frameSize samples)).result = .ok ()) :
    let framer := (started sizing (IdentityEngine.ofMemory frameSize samples)).framer
    let quantum := sizing.quantum.toNat
    (∀ signal : List Sample,
      let length := (signal.length + quantum - 1) / quantum * quantum
      (AudioCallback.render framer signal quantum).1 =
        (Sample.silence sizing.latency.toNat ++ signal ++ Sample.silence length).take length) ∧
    ∀ (inputs : List (List Sample)) (buffer : List Sample),
      (∀ b ∈ inputs, b.length = quantum) → buffer.length = quantum →
        let last := (AudioCallback.renderBlocks inputs buffer framer).2
        last.phase = .running ∧ last.tallies = some ({}, {}) ∧
          last.frames = inputs.length * quantum / frameSize.toNat ∧
          ∃ input output, last.buffered = some (input, output) ∧
            input + output = min inputs.length sizing.warmupQuanta.toNat * quantum := by
  intro framer quantum
  obtain ⟨h, hf, hline⟩ := inStep_started (Arena.tidy_ofCapacity hsamples) hstart
  have hpos : 0 < quantum := hf.sized.fits.quantum_pos
  constructor
  · intro signal length
    refine hf.render_eq hline signal ?_ ?_
    · rw [length_blocks hpos]
    · have hdiv := Nat.div_add_mod' (signal.length + quantum - 1) quantum
      have hmod := Nat.mod_lt (signal.length + quantum - 1) hpos
      change signal.length ≤ (signal.length + quantum - 1) / quantum * quantum
      omega
  · intro inputs buffer hinputs hbuffer last
    obtain ⟨h', hf', -⟩ := InStep.renderBlocks _ _ _ _ _ hf hinputs hbuffer
    rw [Nat.zero_add] at hf'
    refine ⟨hf'.runs.phase_eq, ?_, ?_, h'.input.available, h'.output.available, ?_, ?_⟩
    · rw [tallies, hf'.runs.holdings_eq, Option.map_some, hf'.input_tally, hf'.output_tally]
    · rw [hf'.frames_eq, hf'.sized.fits.frame_eq]
      rfl
    · rw [buffered, hf'.runs.holdings_eq, Option.map_some]
    · have hwait := hf'.length_waiting
      rw [Holdings.waiting, List.length_append, SampleRing.length_toList,
        SampleRing.length_toList] at hwait
      rw [Nat.add_comm]
      exact hwait

/-- Two quanta of three samples against frames of two, and a signal of four. -/
theorem render_delays_of_four :
    let start := started ⟨48000, 3, 2, 2⟩ (IdentityEngine.ofMemory 2 4)
    start.result = .ok () ∧
      (AudioCallback.render start.framer [.one, .zero, .one, .one] 3).1 =
        [.zero, .zero, .zero, .one, .zero, .one] ∧
      (AudioCallback.renderBlocks [[.one, .zero, .one], [.one, .one, .one]]
        [.one, .one, .one] start.framer).2.frames = 3 := by
  have hstart : (started ⟨48000, 3, 2, 2⟩ (IdentityEngine.ofMemory 2 4)).result = .ok () := by
    rfl
  obtain ⟨hrender, hstate⟩ := render_delays 2 (by decide) hstart
  obtain ⟨-, -, hframes, -⟩ := hstate [[.one, .zero, .one], [.one, .one, .one]]
    [.one, .one, .one] (by decide) rfl
  exact ⟨hstart, hrender [.one, .zero, .one, .one], hframes⟩

end Framer

end AudioFraming
