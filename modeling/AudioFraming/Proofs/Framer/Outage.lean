import AudioFraming.Proofs.Framer.Accounts
import AudioFraming.Proofs.Framer.Conservation
import AudioFraming.Proofs.Framer.Refusal
import Mathlib.Algebra.Order.Floor.Div

/-!
# The callback in which an engine fails

An engine copies its frames and refuses the `n`-th of them. A host brings a quantum and takes one
with each callback. Up to the callback that makes frame `n` whole, the host gets what it has sent,
late by the latency (`Framer.OnTime`): all that waits is the end of the stream, and how much waits
follows from the warm-up. That callback fails, after the frames before it have gone through, and
from it on the host gets its own input (`Framer.outage_strikes`).
-/

namespace AudioFraming

theorem passThrough_self (input : List Sample) : passThrough input input.length = input := by
  simp [passThrough, Sample.silence]

/-- The samples that callback `k` takes from a stream that comes late. -/
def window (latency quantum k : Nat) (stream : List Sample) : List Sample :=
  ((Sample.silence latency ++ stream).drop (k * quantum)).take quantum

section window

variable {latency quantum k : Nat} {stream : List Sample}

theorem window_of_lt (h : (k + 1) * quantum ≤ latency) :
    window latency quantum k stream = Sample.silence quantum := by
  rw [Nat.succ_mul] at h
  have hlen := Sample.length_silence latency
  rw [window, List.drop_append_of_le_length (by omega), List.take_append_of_le_length
    (by rw [List.length_drop]; omega), Sample.silence, List.drop_replicate, List.take_replicate,
    Nat.min_eq_left (by omega)]
  rfl

theorem window_of_le (h : latency ≤ k * quantum) :
    window latency quantum k stream = (stream.drop (k * quantum - latency)).take quantum := by
  rw [window, List.drop_append, List.drop_eq_nil_of_le (by simpa using h), List.nil_append,
    Sample.length_silence]

/-- What comes later does not show. -/
theorem window_append (h : (k + 1) * quantum ≤ latency + stream.length) (later : List Sample) :
    window latency quantum k (stream ++ later) = window latency quantum k stream := by
  rw [Nat.succ_mul] at h
  have hlen : (Sample.silence latency ++ stream).length = latency + stream.length := by simp
  rw [window, ← List.append_assoc, List.drop_append_of_le_length (by omega),
    List.take_append_of_le_length (by rw [List.length_drop]; omega)]
  rfl

end window

/-- With one quantum more in the rings than the warm-up leaves there, the buffer gets the samples
whose turn it is. -/
theorem Framer.Hands.block_eq_window {σ : Type} {sizing : Sizing} (hfits : sizing.Fits sizing.frame)
    {k : Nat} {r : Progress σ} {buffer : List Sample} {ring : SampleRing}
    {o : Outcome σ Delivery} (hhands : Hands (sizing.warmupQuanta.toNat - k) r buffer ring o)
    {stream : List Sample} (hlen : stream.length = (k + 1) * sizing.quantum.toNat)
    (hbuffer : buffer.length = sizing.quantum.toNat)
    (hwaiting : r.waiting = stream.drop (stream.length - r.backlog))
    (hmod : (k + 1) * sizing.quantum.toNat % sizing.frame.toNat = r.input.available)
    (hbacklog : r.backlog = (min k sizing.warmupQuanta.toNat + 1) * sizing.quantum.toNat) :
    o.events = r.events ∧
      o.answer.block = window (sizing.warmupQuanta.toNat * sizing.quantum.toNat)
        sizing.quantum.toNat k stream ∧
      r.input.available + ring.available =
        min (k + 1) sizing.warmupQuanta.toNat * sizing.quantum.toNat := by
  have hsum : r.backlog = r.input.available + r.output.available := rfl
  cases hhands with
  | warmup howed hout hblock heq =>
    have hmore : k < sizing.warmupQuanta.toNat := by omega
    refine ⟨heq, ?_, ?_⟩
    · rw [hblock, hbuffer, window_of_lt (Nat.mul_le_mul_right _ hmore)]
    · rw [hout, ← hsum, hbacklog, Nat.min_eq_left hmore.le, Nat.min_eq_left hmore]
  | missed hpaid hmiss =>
    -- The output ring lacks only what is left over in the input ring, less than the lag.
    have hresidue := hfits.residue_le_lag (k + 1)
    have hlag := hfits.warmup_bounds.1
    rw [hmod] at hresidue
    rw [Nat.min_eq_right (by omega), Nat.succ_mul] at hbacklog
    omega
  | filled hpaid hle hcapacity hlist htally hblock heq =>
    have hmost : sizing.warmupQuanta.toNat ≤ k := by omega
    have hleft := congrArg List.length hlist
    rw [SampleRing.length_toList, List.length_drop, SampleRing.length_toList] at hleft
    rw [Nat.min_eq_right hmost, Nat.succ_mul] at hbacklog
    refine ⟨heq, ?_, ?_⟩
    · -- The oldest of what waits, which is the end of the stream.
      have htake : r.output.toList.take buffer.length = r.waiting.take buffer.length := by
        rw [Progress.waiting, List.take_append_of_le_length (by rwa [SampleRing.length_toList])]
      have hskip : stream.length - r.backlog =
          k * sizing.quantum.toNat - sizing.warmupQuanta.toNat * sizing.quantum.toNat := by
        rw [hlen, hbacklog, Nat.succ_mul]
        omega
      rw [hblock, htake, hwaiting, hskip, hbuffer, window_of_le (Nat.mul_le_mul_right _ hmost)]
    · rw [Nat.min_eq_right (by omega)]
      omega

/-- How many quanta it takes until so many frames are whole. -/
def Sizing.quantaFor (s : Sizing) (frames : Nat) : Nat :=
  frames * s.frame.toNat ⌈/⌉ s.quantum.toNat

theorem Sizing.lt_quantaFor {s : Sizing} (hquantum : 0 < s.quantum.toNat) {frames k : Nat} :
    k < s.quantaFor frames ↔ k * s.quantum.toNat < frames * s.frame.toNat := by
  rw [← Nat.not_le, quantaFor, ceilDiv_le_iff_le_mul hquantum, Nat.not_le, Nat.mul_comm]

namespace Framer

variable {σ : Type} [Engine σ]

/-- After `k` quanta in and `k` quanta out, with nothing amiss and at most `n` frames through. -/
structure OnTime (sizing : Sizing) (n : Nat) (lease : Lease) (e : σ) (ring : SampleRing) (k : Nat)
    (stream : List Sample) (f : Framer σ) (h : Holdings) : Prop where
  phase_eq : f.phase = .running
  holdings_eq : f.holdings = some h
  lease_eq : h.lease = lease
  settled : h.Settled sizing
  left_eq : f.warmupLeft = sizing.warmupQuanta.toNat - k
  length_eq : stream.length = k * sizing.quantum.toNat
  progress : (f.progress h).Reframes lease sizing.frame.toNat e ring stream
  frames_le : f.frames ≤ n
  backlog_eq : h.backlog = min k sizing.warmupQuanta.toNat * sizing.quantum.toNat

/-- The answer about the last of the frames that are copied. -/
def lastVad (frame n : Nat) (stream : List Sample) : Sample :=
  ((leadingFrames frame n stream).getLast?.map IdentityEngine.voiceActivity).getD .zero

theorem lastVad_append {frame n : Nat} {stream : List Sample} (h : n * frame ≤ stream.length)
    (more : List Sample) : lastVad frame n (stream ++ more) = lastVad frame n stream := by
  rw [lastVad, leadingFrames_append h, lastVad]

/-- What becomes of a quantum that comes in, with the stream up to its end. -/
inductive Arrival (sizing : Sizing) (n : Nat) (lease : Lease) (e : σ) (ring : SampleRing) (k : Nat)
    (stream : List Sample) (f : Framer σ) (h : Holdings) (input : List Sample) : Prop
  /-- Frame `n` is not whole yet, and the frames that are go through. -/
  | passes (r : Progress σ)
      (hadvance : (f.progress h).advance lease sizing.frame.toNat input = (none, r))
      (hlt : (k + 1) * sizing.quantum.toNat < (n + 1) * sizing.frame.toNat)
      (hprogress : r.Reframes lease sizing.frame.toNat e ring stream) (hframes : r.frames ≤ n)
      (hevents : r.events = []) (havailable : r.input.available < sizing.frame.toNat)
      (hinput : r.input.capacity = h.input.capacity)
      (houtput : r.output.capacity = h.output.capacity)
      (hbacklog : r.backlog =
        (min k sizing.warmupQuanta.toNat + 1) * sizing.quantum.toNat)
  /-- Frame `n` is lost, after all frames before it. -/
  | strikes (fault : EngineError) (r : Progress σ)
      (hadvance : (f.progress h).advance lease sizing.frame.toNat input =
        (some (.engine fault), r))
      (hge : (n + 1) * sizing.frame.toNat ≤ (k + 1) * sizing.quantum.toNat)
      (hanswer : (lease.service (lease.serveAll e (leadingFrames sizing.frame.toNat n stream))
        ((stream.drop (n * sizing.frame.toNat)).take sizing.frame.toNat)).answer = .error fault)
      (hevents : r.events = []) (hframes : r.frames = n)
      (hvad : r.vad = lastVad sizing.frame.toNat n stream)

namespace OnTime

variable {sizing : Sizing} {n k samples : Nat} {lease : Lease} {e : σ} {ring : SampleRing}
  {stream : List Sample} {f : Framer σ} {h : Holdings} {P : Nat → σ → Prop}
  {input buffer : List Sample}
  (hf : OnTime sizing n lease e ring k stream f h)
  (hframe : sizing.frame.toNat ≤ 2 ^ 30) (hinput : input.length = sizing.quantum.toNat)

include hf hframe hinput in
/-- A quantum comes in, and there is room for it in both rings. -/
theorem absorb : ∃ p, (f.progress h).absorb input = (none, p) ∧
    p.Reframes lease sizing.frame.toNat e ring (stream ++ input) ∧ p.events = [] ∧
    p.frames ≤ n ∧ p.input.capacity = h.input.capacity ∧ p.output.capacity = h.output.capacity ∧
    p.backlog = (min k sizing.warmupQuanta.toNat + 1) * sizing.quantum.toNat ∧
    p.backlog ≤ p.output.capacity := by
  have hfits := hf.settled.fits
  have hlt := hf.settled.available_lt
  have hreq := hfits.required_bounds.1
  have hsmall := hfits.ringCapacity_lt hframe
  have hmost := hfits.backlog_le_ringCapacity hframe
  have hmin : (min k sizing.warmupQuanta.toNat + 1) * sizing.quantum.toNat ≤
      (sizing.warmupQuanta.toNat + 1) * sizing.quantum.toNat :=
    Nat.mul_le_mul_right _ (by omega)
  have hne : input ≠ [] := List.ne_nil_of_length_pos (hinput ▸ hfits.quantum_pos)
  have hincap := hf.settled.input_capacity
  have houtcap := hf.settled.output_capacity
  have hbacklog := hf.backlog_eq
  unfold Sizing.maxSize at hreq
  unfold Holdings.backlog at hbacklog
  obtain ⟨filled, habsorb, hcapacity, havail⟩ :=
    (f.progress h).exists_absorb_of_room hne (by dsimp only [Framer.progress]; omega)
  have hquiet : ∀ event ∈ ({ f.progress h with input := filled } : Progress σ).events,
      event.losesInput = false := nofun
  rw [Nat.succ_mul] at hmin ⊢
  dsimp only [Framer.progress] at hcapacity havail
  refine ⟨_, habsorb, hf.progress.absorb habsorb hquiet, rfl, hf.frames_le, hcapacity, rfl, ?_, ?_⟩
  all_goals
    simp only [Progress.backlog, Framer.progress]
    omega

variable (hcopies : lease.CopiesUntil samples sizing.frame n P)
  (hlies : lease.Lies samples sizing.frame.toNat) (he : P 0 e)
  (hcap : ring.capacity = sizing.ringCapacity.toNat)

include hf hframe hinput hcopies hlies he hcap

/-- Which of the two happens is up to how much of the stream has come in. -/
theorem arrival : Arrival sizing n lease e ring k (stream ++ input) f h input := by
  have hpos := hf.settled.fits.frame_pos
  have hle : sizing.frame.toNat ≤ ring.capacity := hcap ▸ hf.settled.fits.frame_le_ringCapacity
  have hlen : (stream ++ input).length = (k + 1) * sizing.quantum.toNat := by
    rw [List.length_append, hf.length_eq, hinput, Nat.succ_mul]
  obtain ⟨p, habsorb, hp, hevents, hframes, hincap, houtcap, hbacklog, hroom⟩ :=
    hf.absorb hframe hinput
  rcases hadvance : (f.progress h).advance lease sizing.frame.toNat input with ⟨fault | fault, r⟩
  · have hdrain := hadvance
    simp only [Progress.advance, habsorb, Progress.passLimit, if_neg hpos.ne'] at hdrain
    obtain ⟨hreach, hmod⟩ := Progress.reaches_of_drain hpos _ p le_rfl hdrain
    obtain ⟨hr, hrle⟩ := hp.reaches_le hcopies he hpos hframes hle hreach
    obtain ⟨hevents', hbacklog', houtcap'⟩ := Progress.calm_of_reaches hpos hroom hreach
    have hsettles := Progress.settles_of_reaches hpos
      (hle.trans_eq (hp.fed.capacity_eq.symm)) hreach
    have havail := hr.available_eq
    have hshort := hmod.trans_lt (Nat.mod_lt p.input.available hpos)
    have hmul := Nat.mul_le_mul_right sizing.frame.toNat hrle
    refine .passes r hadvance ?_ hr hrle (hevents'.trans hevents) hshort
      (hsettles.input_capacity.trans hincap) (houtcap'.trans houtcap) (hbacklog'.trans hbacklog)
    rw [← hlen, Nat.succ_mul]
    omega
  · cases (Progress.advance_eq_some_iff hpos).mp hadvance with
    | tooLong hlong =>
      rw [Progress.absorb_eq_some_iff.mpr ⟨hlong, rfl, rfl⟩] at habsorb
      cases habsorb
    | frame habsorb' hfalls =>
      obtain rfl := (Prod.mk.inj (habsorb.symm.trans habsorb')).2
      obtain ⟨q, hreach, hwaits, hloses⟩ := hfalls
      obtain ⟨hq, hqle⟩ := hp.reaches_le hcopies he hpos hframes hle hreach
      obtain ⟨hevents', -⟩ := Progress.calm_of_reaches hpos hroom hreach
      obtain ⟨hlast, hanswer, hcount, hvad⟩ :=
        hq.eq_of_loses hcopies hlies he hpos hqle hwaits hloses
      have havail := hq.available_eq
      have hvad' := hq.vad_eq_voiceActivity hcopies he hqle
      rw [hlast] at hcount havail hvad'
      rw [hq.engine_eq, hq.input_eq, hlast] at hanswer
      refine .strikes _ r hadvance ?_ hanswer ?_ hcount (hvad.trans hvad')
      · rw [← hlen, Nat.succ_mul]
        omega
      · rw [hloses.events_eq hpos hwaits, hevents', hevents]

variable (hbuffer : buffer.length = sizing.quantum.toNat) (hring : ring.toList = [])

include hbuffer hring

/-- Before frame `n` is whole, the host gets what it has sent, late by the warm-up. -/
theorem quantum (hlt : (k + 1) * sizing.quantum.toNat < (n + 1) * sizing.frame.toNat) :
    ∃ h', OnTime sizing n lease e ring (k + 1) (stream ++ input) (f.quantum input buffer).framer
        h' ∧
      (f.quantum input buffer).events = [] ∧
      (f.quantum input buffer).answer =
        ⟨true, window (sizing.warmupQuanta.toNat * sizing.quantum.toNat) sizing.quantum.toNat k
          (stream ++ input)⟩ := by
  have hfits := hf.settled.fits
  have hlen : (stream ++ input).length = (k + 1) * sizing.quantum.toNat := by
    rw [List.length_append, hf.length_eq, hinput, Nat.succ_mul]
  have hphase := hf.phase_eq
  have hengine : f.engineFrame = sizing.frame :=
    hcopies.frameSize_eq _ _ (hf.progress.served hcopies he hf.frames_le)
  cases hf.arrival hframe hinput hcopies hlies he hcap with
  | strikes fault r hadvance hge => omega
  | passes r hadvance hlt hr hrle hevents hshort hincap houtcap hbacklog =>
    rw [← hf.lease_eq, ← hengine] at hadvance
    have hwaiting := hr.waiting_eq hcopies he hrle hring
    obtain ⟨output, hframer, hhands⟩ :=
      hands_deliver { f with callbacks := f.callbacks + 1 } h.lease r buffer
    have hgo := keepGoing_deliver { f with callbacks := f.callbacks + 1 } h.lease r buffer
    have hsome : ({ f with callbacks := f.callbacks + 1 }.deliver h.lease r
        buffer).framer.holdings = some ⟨r.input, output, h.lease⟩ := by
      rw [hframer]
      rfl
    have hnext := reframes_deliver { f with callbacks := f.callbacks + 1 } hr buffer hsome
    rw [← quantum_eq_deliver hphase hf.holdings_eq hadvance] at hframer hhands hgo hsome hnext
    dsimp only at hhands
    rw [hf.left_eq] at hhands
    obtain ⟨hevents', hblock, hbacklog'⟩ :=
      hhands.block_eq_window hfits hlen hbuffer hwaiting (hr.mod_eq hlen hshort) hbacklog
    refine ⟨⟨r.input, output, h.lease⟩, ⟨?_, hsome, hf.lease_eq, ⟨?_, hshort⟩, ?_, hlen, hnext, ?_,
      hbacklog'⟩, hevents'.trans hevents, ?_⟩
    · rw [hframer]
      exact hphase
    · exact hf.settled.toSized.of_capacity_eq hincap (hhands.capacity_eq.trans houtcap)
    · rw [hframer, ← Nat.sub_sub]
      exact congrArg (· - 1) hf.left_eq
    · rw [hframer]
      exact hrle
    · rw [← hblock, ← hgo]

omit hring in
/-- The callback that makes frame `n` whole gives up, and passes its input through. -/
theorem quantum_of_le (hge : (n + 1) * sizing.frame.toNat ≤ (k + 1) * sizing.quantum.toNat) :
    (∃ fault, (lease.services e (leadingFrames sizing.frame.toNat (n + 1)
        (stream ++ input))).getLast?.map Service.answer = some (.error fault) ∧
      (f.quantum input buffer).events = [.engineFailure fault, .phaseChanged .bypassed]) ∧
    (f.quantum input buffer).answer = ⟨true, input⟩ ∧
    (f.quantum input buffer).framer.phase = .bypassed ∧
    (f.quantum input buffer).framer.frames = n ∧
    (f.quantum input buffer).framer.vad = lastVad sizing.frame.toNat n (stream ++ input) := by
  have hengine : f.engineFrame = sizing.frame :=
    hcopies.frameSize_eq _ _ (hf.progress.served hcopies he hf.frames_le)
  cases hf.arrival hframe hinput hcopies hlies he hcap with
  | passes r hadvance hlt => omega
  | strikes fault r hadvance hge hanswer hevents hframes hvad =>
    rw [← hf.lease_eq, ← hengine] at hadvance
    rw [quantum_eq_fail hf.phase_eq hf.holdings_eq hadvance]
    refine ⟨⟨fault, ?_, ?_⟩, ?_, rfl, hframes, hvad⟩
    · rw [leadingFrames_succ, Lease.services_append, List.getLast?_concat, Option.map_some,
        hanswer]
    · simp only [fail, hevents]
      rfl
    · rw [hbuffer, ← hinput, fail, passThrough_self]

omit hinput hcopies hlies he hcap hbuffer hring hframe in
/-- Frame `n` is not whole yet. -/
theorem lt_quantaFor : k < sizing.quantaFor (n + 1) := by
  have havail : h.input.available = stream.length - f.frames * sizing.frame.toNat :=
    hf.progress.available_eq
  have hshort := hf.settled.available_lt
  have hmul := Nat.mul_le_mul_right sizing.frame.toNat hf.frames_le
  rw [Sizing.lt_quantaFor hf.settled.fits.quantum_pos, ← hf.length_eq, Nat.succ_mul]
  omega

end OnTime

/-- Callback `k`, counted from zero, of a host that brings and takes quanta, over an engine that
copies `n` frames of the stream and refuses the next one. -/
structure Strikes (sizing : Sizing) (n : Nat) (lease : Lease) (e : σ) (stream : List Sample)
    (k : Nat) (input : List Sample) (o : Outcome σ Delivery) : Prop where
  /-- Before frame `n` is whole, the host gets what it has sent, late by the latency. -/
  before : k + 1 < sizing.quantaFor (n + 1) → o.events = [] ∧ o.answer =
    ⟨true, window sizing.latency.toNat sizing.quantum.toNat k stream⟩
  /-- The callback that makes it whole tells what the engine has answered, and gives up. -/
  strikes : k + 1 = sizing.quantaFor (n + 1) → ∃ fault,
    (lease.services e (leadingFrames sizing.frame.toNat (n + 1) stream)).getLast?.map
      Service.answer = some (.error fault) ∧
    o.events = [.engineFailure fault, .phaseChanged .bypassed]
  /-- From then on the host gets its own input, and the engine is out of it. -/
  bypasses : sizing.quantaFor (n + 1) ≤ k + 1 → o.answer = ⟨true, input⟩ ∧
    o.framer.phase = .bypassed ∧ o.framer.frames = n ∧
    o.framer.vad = lastVad sizing.frame.toNat n stream
  silent : sizing.quantaFor (n + 1) < k + 1 → o.events = []

/-- Nothing more happens to a framer that has given up. -/
theorem quanta_of_bypassed {f : Framer σ} (hphase : f.phase = .bypassed)
    {calls : List (List Sample × List Sample)} {i : Nat} {c : List Sample × List Sample}
    {o : Outcome σ Delivery} (hc : calls[i]? = some c) (ho : (f.quanta calls).1[i]? = some o)
    (hlen : c.1.length = c.2.length) :
    o.events = [] ∧ o.answer = ⟨true, c.1⟩ ∧ o.framer.phase = .bypassed ∧
      o.framer.frames = f.frames ∧ o.framer.vad = f.vad := by
  induction calls generalizing f i with
  | nil => cases hc
  | cons first rest ih =>
    obtain ⟨input, buffer⟩ := first
    have hruns : ¬(f.phase = .running ∧ ∃ h, f.holdings = some h) := by simp [hphase]
    have hidle := quantum_of_not_runs hruns input buffer
    rw [quanta_cons] at ho
    cases i with
    | zero =>
      obtain rfl := Option.some.inj hc
      obtain rfl := Option.some.inj ho
      rw [hidle]
      refine ⟨rfl, ?_, hphase, rfl, rfl⟩
      rw [← hlen, passThrough_self, hphase]
      rfl
    | succ i =>
      have hkept : (f.quantum input buffer).framer.phase = .bypassed := by rw [hidle, hphase]
      have hrest := ih hkept hc ho
      rw [hidle] at hrest
      exact hrest

section run

variable {sizing : Sizing} {n samples : Nat} {lease : Lease} {e : σ} {ring : SampleRing}
  {P : Nat → σ → Prop} (hframe : sizing.frame.toNat ≤ 2 ^ 30)
  (hcopies : lease.CopiesUntil samples sizing.frame n P)
  (hlies : lease.Lies samples sizing.frame.toNat) (he : P 0 e)
  (hcap : ring.capacity = sizing.ringCapacity.toNat) (hring : ring.toList = [])

include hframe hcopies hlies he hcap hring

theorem OnTime.strikes_quanta {k : Nat} {stream : List Sample} {f : Framer σ} {h : Holdings}
    (hf : OnTime sizing n lease e ring k stream f h) {calls : List (List Sample × List Sample)}
    (hcalls : ∀ c ∈ calls,
      c.1.length = sizing.quantum.toNat ∧ c.2.length = sizing.quantum.toNat)
    {i : Nat} {c : List Sample × List Sample} {o : Outcome σ Delivery}
    (hc : calls[i]? = some c) (ho : (f.quanta calls).1[i]? = some o) :
    Strikes sizing n lease e (stream ++ calls.flatMap Prod.fst) (k + i) c.1 o := by
  induction calls generalizing k stream f h i with
  | nil => cases hc
  | cons first rest ih =>
    obtain ⟨input, buffer⟩ := first
    obtain ⟨⟨hinput, hbuffer⟩, hrest⟩ := List.forall_mem_cons.mp hcalls
    dsimp only at hinput hbuffer
    have hq := hf.settled.fits.quantum_pos
    have hlen : (stream ++ input).length = (k + 1) * sizing.quantum.toNat := by
      rw [List.length_append, hf.length_eq, hinput, Nat.succ_mul]
    rw [quanta_cons] at ho
    rw [List.flatMap_cons, ← List.append_assoc]
    by_cases hlt : k + 1 < sizing.quantaFor (n + 1)
    · obtain ⟨h', hf', hevents, hanswer⟩ := hf.quantum hframe hinput hcopies hlies he hcap
        hbuffer hring ((Sizing.lt_quantaFor hq).mp hlt)
      cases i with
      | zero =>
        obtain rfl := Option.some.inj hc
        obtain rfl := Option.some.inj ho
        refine ⟨fun _ => ⟨hevents, ?_⟩, fun heq => ?_, fun hle => ?_, fun hlt' => ?_⟩
        · have hwindow : window (sizing.warmupQuanta.toNat * sizing.quantum.toNat)
              sizing.quantum.toNat k (stream ++ input ++ rest.flatMap Prod.fst) =
                window (sizing.warmupQuanta.toNat * sizing.quantum.toNat) sizing.quantum.toNat k
                  (stream ++ input) :=
            window_append (by omega) _
          rw [hanswer, hf.settled.fits.toNat_latency hframe, Nat.add_zero, hwindow]
        all_goals omega
      | succ i =>
        rw [Nat.add_comm i, ← Nat.add_assoc]
        exact ih hf' hrest hc ho
    · have hlast : k + 1 = sizing.quantaFor (n + 1) :=
        Nat.le_antisymm hf.lt_quantaFor (Nat.not_lt.mp hlt)
      have hwhole : (n + 1) * sizing.frame.toNat ≤ (k + 1) * sizing.quantum.toNat :=
        Nat.not_lt.mp ((Sizing.lt_quantaFor hq).not.mp hlt)
      have hframes := leadingFrames_append (hlen ▸ hwhole) (rest.flatMap Prod.fst)
      have hbefore : n * sizing.frame.toNat ≤ (stream ++ input).length := by
        rw [Nat.succ_mul] at hwhole
        omega
      have hvad := lastVad_append hbefore (rest.flatMap Prod.fst)
      obtain ⟨htells, hanswer, hphase, hcount, hlastVad⟩ :=
        hf.quantum_of_le hframe hinput hcopies hlies he hcap hbuffer hwhole
      rw [← hframes] at htells
      rw [← hvad] at hlastVad
      cases i with
      | zero =>
        obtain rfl := Option.some.inj hc
        obtain rfl := Option.some.inj ho
        refine ⟨fun hlt' => ?_, fun _ => htells,
          fun _ => ⟨hanswer, hphase, hcount, hlastVad⟩, fun hlt' => ?_⟩
        all_goals omega
      | succ i =>
        have hcall : rest[i]? = some c := hc
        obtain ⟨hin, hout⟩ := hrest c (List.mem_of_getElem? hcall)
        obtain ⟨hevents, hanswer', hphase', hcount', hvad'⟩ :=
          quanta_of_bypassed hphase hcall ho (hin.trans hout.symm)
        refine ⟨fun hlt' => ?_, fun heq => ?_, fun _ => ?_, fun _ => hevents⟩
        · omega
        · omega
        · exact ⟨hanswer', hphase', hcount'.trans hcount, hvad'.trans hlastVad⟩

end run

/-- Nothing has come in or gone out since the start. -/
theorem onTime_started {sizing : Sizing} {s : σ} (hstart : (started sizing s).result = .ok ())
    {lease : Lease} {e : σ} (htake : Lease.take s (Engine.frameSize s).toNat = (.ok lease, e))
    (n : Nat) :
    ∃ hpos h, OnTime sizing n lease e (.ofCapacity sizing.ringCapacity.toNat hpos) 0 []
      (started sizing s).framer h := by
  obtain ⟨rfl, hpos, hfresh⟩ := fresh_started hstart htake
  obtain ⟨hfits, e, lease', _, -, hframer⟩ := exists_of_started_ok hstart
  rw [← hfits.frame_eq] at hfits
  refine ⟨hpos, _, hfresh.phase_eq, hfresh.holdings_eq, rfl,
    ⟨Holdings.sized_ofCapacity hfits hpos lease, hfits.frame_pos⟩, ?_, ?_,
    (hfresh.reframed sizing.frame.toNat).progress, ?_, ?_⟩
  · rw [hframer, Nat.sub_zero]
  · rw [List.length_nil, Nat.zero_mul]
  · rw [hfresh.frames_eq]
    exact Nat.zero_le n
  · rw [Nat.zero_min, Nat.zero_mul]
    rfl

/-- An engine that copies its frames and refuses frame `n` fails in the callback that makes this
frame whole, and no other. Up to it the host gets its stream, late by the latency, and hears
nothing; that callback says what has happened; it and all after it pass their own input through,
and the count and the last answer stay those of the frames before. -/
theorem outage_strikes {samples : Nat} (hsamples : samples ≤ 2 ^ 30) (history : List ArenaCall)
    {s : σ} (harena : Engine.arena s = (Arena.ofCapacity samples).replay history)
    {sizing : Sizing} (hstart : (started sizing s).result = .ok ()) {lease : Lease} {e : σ}
    (htake : Lease.take s (Engine.frameSize s).toNat = (.ok lease, e)) {n : Nat}
    {P : Nat → σ → Prop} (hcopies : lease.CopiesUntil samples sizing.frame n P) (he : P 0 e)
    (calls : List (List Sample × List Sample))
    (hcalls : ∀ c ∈ calls,
      c.1.length = sizing.quantum.toNat ∧ c.2.length = sizing.quantum.toNat) :
    let outcomes := ((started sizing s).framer.quanta calls).1
    outcomes.length = calls.length ∧ ∀ i c o, calls[i]? = some c → outcomes[i]? = some o →
      Strikes sizing n lease e (calls.flatMap Prod.fst) i c.1 o := by
  intro outcomes
  obtain ⟨hpos, h, hf⟩ := onTime_started hstart htake n
  have hfits := (exists_of_started_ok hstart).1
  have hlies : lease.Lies samples sizing.frame.toNat := by
    have hlies := Lease.lies_of_take (harena ▸ Arena.tidy_replay hsamples history) htake
    rwa [harena, Arena.capacity_replay, Arena.capacity_ofCapacity, ← hfits.frame_eq] at hlies
  have hframe : sizing.frame.toNat ≤ 2 ^ 30 := by
    have hlocate := hlies.input _ (hcopies.capacity_eq 0 e he)
    have hbound := (Arena.locate_eq_ok hlocate).2
    rw [hcopies.capacity_eq 0 e he] at hbound
    omega
  refine ⟨length_quanta .., fun i c o hc ho => ?_⟩
  have hstrikes := hf.strikes_quanta hframe hcopies hlies he (SampleRing.capacity_ofCapacity ..)
    (SampleRing.toList_ofCapacity ..) hcalls hc ho
  rwa [List.nil_append, Nat.zero_add] at hstrikes

/-- Quanta of three and frames of two. The fourth callback makes the fifth frame whole, which fails,
and a sixth one, which is not asked for. -/
theorem outage_strikes_of_fifth_frame :
    let calls : List (List Sample × List Sample) :=
      [([.one, .zero, .one], Sample.silence 3), ([.one, .one, .zero], Sample.silence 3),
        ([.zero, .one, .one], Sample.silence 3), ([.one, .zero, .zero], Sample.silence 3),
        ([.zero, .one, .zero], Sample.silence 3)]
    let run := ((started ⟨48000, 3, 2, 2⟩ fragileEngine).framer.quanta calls).1
    (started ⟨48000, 3, 2, 2⟩ fragileEngine).result = .ok () ∧
      Sizing.quantaFor ⟨48000, 3, 2, 2⟩ 5 = 4 ∧ run.length = 5 ∧
      (∀ o : Outcome ScriptedEngine Delivery, run[2]? = some o →
        o.events = [] ∧ o.answer = ⟨true, [.one, .one, .zero]⟩) ∧
      (∀ o : Outcome ScriptedEngine Delivery, run[3]? = some o →
        o.events = [.engineFailure (.invalidHandle 99), .phaseChanged .bypassed] ∧
          o.answer = ⟨true, [.one, .zero, .zero]⟩) ∧
      ∀ o : Outcome ScriptedEngine Delivery, run[4]? = some o →
        o.events = [] ∧ o.answer = ⟨true, [.zero, .one, .zero]⟩ ∧
          o.framer.frames = 4 ∧ o.framer.vad = .one := by
  intro calls run
  have hstart : (started ⟨48000, 3, 2, 2⟩ fragileEngine).result = .ok () := by decide +kernel
  have hquanta : Sizing.quantaFor ⟨48000, 3, 2, 2⟩ 5 = 4 := by decide +kernel
  have htake : Lease.take fragileEngine 2 =
      (.ok ⟨⟨0⟩, ⟨0, 2⟩, ⟨8, 2⟩⟩, (Lease.take fragileEngine 2).2) := rfl
  have htidy : fragileEngine.inner.arena.Tidy := Arena.tidy_ofCapacity (by decide)
  have hheld := (Lease.held_take (e := fragileEngine) rfl (.refl htidy)).2
  have hcopies := ScriptedEngine.copiesUntil fragileEngine.script (n := 4) rfl rfl rfl rfl
    fragileEngine.inner ⟨⟨0⟩, ⟨0, 2⟩, ⟨8, 2⟩⟩
  obtain ⟨hlength, hstrikes⟩ := outage_strikes (by decide : 8 ≤ 2 ^ 30) [] (s := fragileEngine) rfl
    hstart htake hcopies ⟨rfl, rfl, hheld⟩ calls (by decide)
  have hlatency : (Sizing.latency ⟨48000, 3, 2, 2⟩).toNat = 3 := by decide +kernel
  refine ⟨hstart, hquanta, hlength, fun o ho => ?_, fun o ho => ?_, fun o ho => ?_⟩
  · have hbefore := (hstrikes 2 _ o rfl ho).before
    rw [hquanta, hlatency] at hbefore
    exact hbefore (by decide)
  · have hfourth := hstrikes 3 _ o rfl ho
    obtain ⟨fault, hfault, hevents⟩ := hfourth.strikes hquanta.symm
    have htold := hfault.symm.trans
      (by decide +kernel : _ = some (Except.error (EngineError.invalidHandle 99)))
    obtain rfl := Except.error.inj (Option.some.inj htold)
    exact ⟨hevents, (hfourth.bypasses hquanta.le).1⟩
  · have hfifth := hstrikes 4 _ o rfl ho
    obtain ⟨hanswer, -, hframes, hvad⟩ := hfifth.bypasses (hquanta.trans_le (by decide))
    exact ⟨hfifth.silent (hquanta.trans_lt (by decide)), hanswer, hframes, hvad⟩

end Framer

end AudioFraming
