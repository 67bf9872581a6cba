import AudioFraming.Proofs.Framer.Flow
import AudioFraming.Proofs.Framer.Start

/-!
# Callbacks

What a callback does comes in two parts: the block goes in and whole frames go through,
then the buffer is filled, in one of three ways (`Hands`). `QuantumCase` lists how far it
can get. Over an identity engine a framer goes on running as long as no input is longer
than a ring (`Runs.quantum`), and the first part is known, too (`Progress.Advances`).
-/

namespace AudioFraming

namespace Holdings

/-- The samples in the rings, the next one to be delivered first. -/
def waiting (h : Holdings) : List Sample := h.output.toList ++ h.input.toList

/-- How many samples the rings have evicted. -/
def evicted (h : Holdings) : Nat := h.input.tally.evicted + h.output.tally.evicted

/-- The rings have the capacity of a sizing that fits an engine. -/
structure Sized (h : Holdings) (sizing : Sizing) (engineFrame : UInt64) : Prop where
  fits : sizing.Fits engineFrame
  input_capacity : h.input.capacity = sizing.ringCapacity.toNat
  output_capacity : h.output.capacity = sizing.ringCapacity.toNat

theorem sized_ofCapacity {sizing : Sizing} {engineFrame : UInt64}
    (hfits : sizing.Fits engineFrame) (hpos : 0 < sizing.ringCapacity.toNat) (lease : Lease) :
    Sized ⟨.ofCapacity sizing.ringCapacity.toNat hpos,
      .ofCapacity sizing.ringCapacity.toNat hpos, lease⟩ sizing engineFrame :=
  ⟨hfits, SampleRing.capacity_ofCapacity .., SampleRing.capacity_ofCapacity ..⟩

theorem Sized.of_capacity_eq {h h' : Holdings} {sizing : Sizing} {engineFrame : UInt64}
    (hs : h.Sized sizing engineFrame) (hin : h'.input.capacity = h.input.capacity)
    (hout : h'.output.capacity = h.output.capacity) : h'.Sized sizing engineFrame :=
  ⟨hs.fits, hin.trans hs.input_capacity, hout.trans hs.output_capacity⟩

end Holdings

namespace Framer

variable {σ : Type}

/-- How the buffer is filled, with some callbacks of silence left, and what becomes of the output
ring. -/
inductive Hands (left : Nat) (p : Progress σ) (buffer : List Sample) (ring : SampleRing)
    (o : Outcome σ Delivery) : Prop
  /-- The warm-up goes on. -/
  | warmup (hleft : 0 < left) (hring : ring = p.output)
      (hblock : o.answer.block = Sample.silence buffer.length) (hevents : o.events = p.events)
  /-- Too little waits. -/
  | missed (hleft : left = 0) (hlt : p.output.available < buffer.length)
      (hcapacity : ring.capacity = p.output.capacity) (hlist : ring.toList = p.output.toList)
      (htally : ring.tally =
        { p.output.tally with underflows := p.output.tally.underflows + 1 })
      (hblock : o.answer.block = Sample.silence buffer.length)
      (hevents : o.events = p.events ++ [.underflow .output])
  | filled (hleft : left = 0) (hle : buffer.length ≤ p.output.available)
      (hcapacity : ring.capacity = p.output.capacity)
      (hlist : ring.toList = p.output.toList.drop buffer.length)
      (htally : ring.tally = p.output.tally)
      (hblock : o.answer.block = p.output.toList.take buffer.length)
      (hevents : o.events = p.events)

theorem Hands.capacity_eq {left : Nat} {p : Progress σ} {buffer : List Sample}
    {ring : SampleRing} {o : Outcome σ Delivery} (h : Hands left p buffer ring o) :
    ring.capacity = p.output.capacity := by
  cases h with
  | warmup hleft hring => rw [hring]
  | missed hleft hlt hcapacity => exact hcapacity
  | filled hleft hle hcapacity => exact hcapacity

theorem hands_deliver (f : Framer σ) (lease : Lease) (p : Progress σ) (buffer : List Sample) :
    ∃ ring, (f.deliver lease p buffer).framer =
        { f.adopt lease { p with output := ring } with warmupLeft := f.warmupLeft - 1 } ∧
      Hands f.warmupLeft p buffer ring (f.deliver lease p buffer) := by
  unfold deliver
  split_ifs with hleft
  · exact ⟨p.output, rfl, .warmup hleft rfl rfl rfl⟩
  have h0 : f.warmupLeft = 0 := Nat.eq_zero_of_not_pos hleft
  have hkeep : ∀ q, f.adopt lease q =
      { f.adopt lease q with warmupLeft := f.warmupLeft - 1 } := by
    intro q
    simp only [adopt, h0]
  have hcount := p.output.count_pull buffer
  have htally := p.output.tally_pull buffer
  have hlist := p.output.toList_pull buffer
  by_cases hle : buffer.length ≤ p.output.available
  · rw [if_pos hle] at hcount htally
    have hfull : ¬((p.output.pull buffer).count = 0 ∧ buffer ≠ []) := by
      rintro ⟨hzero, hne⟩
      exact hne (List.eq_nil_of_length_eq_zero (hcount ▸ hzero))
    dsimp only
    rw [if_neg hfull]
    refine ⟨_, hkeep _, .filled h0 hle (p.output.capacity_pull buffer) ?_ htally
      (p.output.block_pull hle) rfl⟩
    rw [hlist, hcount]
  · rw [if_neg hle] at hcount htally
    have hmiss : (p.output.pull buffer).count = 0 ∧ buffer ≠ [] := by
      refine ⟨hcount, ?_⟩
      rintro rfl
      exact hle (Nat.zero_le _)
    dsimp only
    rw [if_pos hmiss]
    refine ⟨_, hkeep _, .missed h0 (Nat.not_le.mp hle) (p.output.capacity_pull buffer)
      ?_ htally rfl rfl⟩
    rw [hlist, hcount, List.drop_zero]

theorem keepGoing_deliver (f : Framer σ) (lease : Lease) (p : Progress σ)
    (buffer : List Sample) : (f.deliver lease p buffer).answer.keepGoing = true := by
  unfold deliver
  dsimp only
  split_ifs <;> rfl

/-- A callback while running. -/
theorem quantum_eq_run [Engine σ] {f : Framer σ} {h : Holdings} (hphase : f.phase = .running)
    (hsome : f.holdings = some h) (input buffer : List Sample) :
    f.quantum input buffer =
      { f with callbacks := f.callbacks + 1 }.run h f.engineFrame.toNat input buffer := by
  unfold quantum
  simp only [hphase, hsome]
  rfl

section run

variable [Engine σ] {f : Framer σ} {h : Holdings} (hphase : f.phase = .running)
  (hsome : f.holdings = some h) {input : List Sample} {p : Progress σ}

include hphase hsome

/-- A callback in which nothing goes wrong delivers. -/
theorem quantum_eq_deliver
    (hadvance : (f.progress h).advance h.lease f.engineFrame.toNat input = (none, p))
    (buffer : List Sample) : f.quantum input buffer =
      { f with callbacks := f.callbacks + 1 }.deliver h.lease p buffer := by
  have hprogress : { f with callbacks := f.callbacks + 1 }.progress h = f.progress h := rfl
  rw [quantum_eq_run hphase hsome, run, hprogress, hadvance]

theorem quantum_eq_fail {e : SetupError}
    (hadvance : (f.progress h).advance h.lease f.engineFrame.toNat input = (some e, p))
    (buffer : List Sample) : f.quantum input buffer =
      { f with callbacks := f.callbacks + 1 }.fail h.lease p e input buffer.length := by
  have hprogress : { f with callbacks := f.callbacks + 1 }.progress h = f.progress h := rfl
  rw [quantum_eq_run hphase hsome, run, hprogress, hadvance]

end run

/-- A callback that finds nothing to run with passes its input through. -/
theorem quantum_of_not_runs [Engine σ] {f : Framer σ}
    (hruns : ¬(f.phase = .running ∧ ∃ h, f.holdings = some h)) (input buffer : List Sample) :
    f.quantum input buffer = ⟨{ f with callbacks := f.callbacks + 1 },
      ⟨f.phase ≠ .stopped, passThrough input buffer.length⟩, []⟩ := by
  unfold quantum
  dsimp only
  split
  · rename_i h hphase hsome
    exact absurd ⟨hphase, h, hsome⟩ hruns
  · rename_i hphase
    simp [hphase]
  · rename_i hstopped _
    have hphase : f.phase ≠ .stopped := hstopped
    simp [hphase]

/-- All that a callback can do. -/
inductive QuantumCase [Engine σ] (f : Framer σ) (input buffer : List Sample) : Prop
  /-- It finds nothing to run with. -/
  | idle (hruns : ¬(f.phase = .running ∧ ∃ h, f.holdings = some h))
      (heq : f.quantum input buffer = ⟨{ f with callbacks := f.callbacks + 1 },
        ⟨f.phase ≠ .stopped, passThrough input buffer.length⟩, []⟩)
  /-- The input does not fit, or a frame is lost. -/
  | fails (h : Holdings) (p : Progress σ) (e : SetupError) (hphase : f.phase = .running)
      (hsome : f.holdings = some h)
      (hadvance : (f.progress h).advance h.lease f.engineFrame.toNat input = (some e, p))
      (heq : f.quantum input buffer =
        { f with callbacks := f.callbacks + 1 }.fail h.lease p e input buffer.length)
  /-- All whole frames go through. -/
  | delivers (h : Holdings) (p : Progress σ) (ring : SampleRing) (hphase : f.phase = .running)
      (hsome : f.holdings = some h)
      (hadvance : (f.progress h).advance h.lease f.engineFrame.toNat input = (none, p))
      (hframer : (f.quantum input buffer).framer =
        { f.adopt h.lease { p with output := ring } with
          warmupLeft := f.warmupLeft - 1
          callbacks := f.callbacks + 1 })
      (hgo : (f.quantum input buffer).answer.keepGoing = true)
      (hhands : Hands f.warmupLeft p buffer ring (f.quantum input buffer))

theorem quantum_case [Engine σ] (f : Framer σ) (input buffer : List Sample) :
    f.QuantumCase input buffer := by
  by_cases hruns : f.phase = .running ∧ ∃ h, f.holdings = some h
  · obtain ⟨hphase, h, hsome⟩ := hruns
    rcases hadvance : (f.progress h).advance h.lease f.engineFrame.toNat input with ⟨fault | e, p⟩
    · obtain ⟨ring, hframer, hhands⟩ :=
        hands_deliver { f with callbacks := f.callbacks + 1 } h.lease p buffer
      have hgo := keepGoing_deliver { f with callbacks := f.callbacks + 1 } h.lease p buffer
      rw [← quantum_eq_deliver hphase hsome hadvance] at hframer hhands hgo
      exact .delivers h p ring hphase hsome hadvance hframer hgo hhands
    · exact .fails h p e hphase hsome hadvance (quantum_eq_fail hphase hsome hadvance buffer)
  · exact .idle hruns (quantum_of_not_runs hruns input buffer)

/-- A framer that runs, holding a lease of an identity engine. -/
structure Runs (before : IdentityEngine) (h : Holdings) (f : Framer IdentityEngine) : Prop where
  phase_eq : f.phase = .running
  holdings_eq : f.holdings = some h
  held : h.lease.Held before f.engine
  frame_pos : 0 < before.frameSize.toNat
  frame_le : before.frameSize.toNat ≤ h.output.capacity

variable {before : IdentityEngine} {h : Holdings} {f : Framer IdentityEngine}

theorem runs_of_sized {sizing : Sizing} (hs : h.Sized sizing before.frameSize)
    (hphase : f.phase = .running) (hsome : f.holdings = some h)
    (hheld : h.lease.Held before f.engine) : Runs before h f := by
  have hsize : before.frameSize = sizing.frame := hs.fits.frame_eq.symm
  refine ⟨hphase, hsome, hheld, ?_, ?_⟩
  · rw [hsize]
    exact hs.fits.frame_pos
  · rw [hsize, hs.output_capacity]
    exact hs.fits.frame_le_ringCapacity

theorem runs_started {sizing : Sizing} (htidy : before.arena.Tidy)
    (hok : (started sizing before).result = .ok ()) :
    ∃ lease, ∃ hpos : 0 < sizing.ringCapacity.toNat,
      Runs before ⟨.ofCapacity sizing.ringCapacity.toNat hpos,
        .ofCapacity sizing.ringCapacity.toNat hpos, lease⟩ (started sizing before).framer ∧
      sizing.Fits before.frameSize ∧
      (started sizing before).framer.warmupLeft = sizing.warmupQuanta.toNat ∧
      (started sizing before).framer.frames = 0 := by
  obtain ⟨e, lease, hpos, hframer, -, hheld, hfits⟩ := started_eq_ok (s := before) trivial htidy hok
  have hsized := Holdings.sized_ofCapacity hfits hpos lease
  rw [hframer]
  exact ⟨lease, hpos, runs_of_sized hsized rfl rfl hheld, hfits, rfl, rfl⟩

/-- A callback with an input that fits into a ring. -/
theorem Runs.quantum (hf : Runs before h f) {input : List Sample} (buffer : List Sample)
    (hfit : input.length ≤ h.input.capacity) :
    ∃ p ring, (f.progress h).Advances before.frameSize.toNat input p ∧
      Hands f.warmupLeft p buffer ring (f.quantum input buffer) ∧
      Runs before ⟨p.input, ring, h.lease⟩ (f.quantum input buffer).framer ∧
      (f.quantum input buffer).framer.warmupLeft = f.warmupLeft - 1 ∧
      (f.quantum input buffer).framer.frames = p.frames ∧
      (f.quantum input buffer).answer.keepGoing = true := by
  have hframe : f.engineFrame = before.frameSize := hf.held.frameSize_eq
  obtain ⟨p, hadvance, hheld, hadv⟩ :=
    Progress.advance_copies (p := f.progress h) hf.held hf.frame_pos hf.frame_le hfit
  obtain ⟨ring, hframer, hhands⟩ :=
    hands_deliver { f with callbacks := f.callbacks + 1 } h.lease p buffer
  rw [← hframe] at hadvance
  rw [quantum_eq_deliver hf.phase_eq hf.holdings_eq hadvance]
  refine ⟨p, ring, hadv, hhands, ?_, ?_, ?_, keepGoing_deliver ..⟩
  · rw [hframer]
    refine ⟨hf.phase_eq, rfl, hheld, hf.frame_pos, ?_⟩
    rw [hhands.capacity_eq, hadv.output_capacity]
    exact hf.frame_le
  · rw [hframer]
  · rw [hframer]
    rfl

end Framer

end AudioFraming
