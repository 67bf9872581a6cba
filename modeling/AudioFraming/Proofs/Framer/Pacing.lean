import AudioFraming.Proofs.Framer.Backlog

/-!
# How long the warm-up has to be

A host that brings a quantum and takes one with each callback leaves in the input ring what is
left over of all its quanta, and in both rings no more than it has been silenced for (`Paced`).
The first callback without samples is the first after which more is left over than that. This
never happens after the warm-up of the sizes, and it does after any shorter one, however late
(`warmup_least`): the longest remainder comes up again and again.
-/

namespace AudioFraming

namespace Framer

variable {σ : Type}

/-- After `k` quanta in and `k` quanta out, the first `n` of them silence, with nothing amiss. -/
structure Paced (sizing : Sizing) (n k : Nat) (f : Framer σ) (h : Holdings) : Prop where
  phase_eq : f.phase = .running
  holdings_eq : f.holdings = some h
  settled : h.Settled sizing
  left_eq : f.warmupLeft = n - k
  available_eq : h.input.available = k * sizing.quantum.toNat % sizing.frame.toNat
  backlog_le : h.backlog ≤ min k n * sizing.quantum.toNat
  /-- What the silence has put by is there, unless the output ring has overflowed. -/
  enough : min k n * sizing.quantum.toNat ≤ h.backlog ∨ sizing.frame.toNat ≤ h.backlog

/-- The silence of one more callback. -/
theorem min_succ_mul (k n quantum : Nat) :
    min (k + 1) n * quantum = min k n * quantum + if n - k = 0 then 0 else quantum := by
  split_ifs with h
  · rw [Nat.min_eq_right (by omega), Nat.min_eq_right (by omega), Nat.add_zero]
  · rw [Nat.min_eq_left (by omega), Nat.min_eq_left (by omega), Nat.succ_mul]

variable [Engine σ] {sizing : Sizing} {n k : Nat} {f : Framer σ} {h : Holdings}
  (hroom : sizing.frame.toNat + sizing.quantum.toNat ≤ sizing.ringCapacity.toNat)

include hroom

/-- A callback is left without samples only if the warm-up was too short. -/
theorem Paced.quantum (hf : Paced sizing n k f h) (hframe : f.engineFrame = sizing.frame)
    {input buffer : List Sample} (hinput : input.length = sizing.quantum.toNat)
    (hbuffer : buffer.length = sizing.quantum.toNat) :
    (.underflow .output ∈ (f.quantum input buffer).events ∧ n < sizing.warmupQuanta.toNat) ∨
      (∀ e ∈ (f.quantum input buffer).events, ¬e.isUnderflow) ∧
        ((f.quantum input buffer).framer.phase = .bypassed ∨
          ∃ h', Paced sizing n (k + 1) (f.quantum input buffer).framer h') := by
  cases turn_quantum hf.phase_eq hf.holdings_eq hf.settled hframe hroom hinput hbuffer with
  | fails hends hevents =>
    refine Or.inr ⟨fun e he => ?_, Or.inl hends⟩
    rcases hevents e he with hspill | ⟨hquiet, -⟩
    · exact hspill.not_underflow
    · exact hquiet
  | goesOn h' hphase hsome hsettled hleft havailable hturn =>
    have hcovered := hf.backlog_le
    have henough := hf.enough
    have hsilence := min_succ_mul k n sizing.quantum.toNat
    have hlt := hsettled.available_lt
    rw [hf.available_eq, Nat.mod_add_mod, ← Nat.add_one_mul] at havailable
    rw [hf.left_eq] at hleft hturn
    have hpaced (hle : h'.backlog ≤ min (k + 1) n * sizing.quantum.toNat)
        (hge : min (k + 1) n * sizing.quantum.toNat ≤ h'.backlog ∨
          sizing.frame.toNat ≤ h'.backlog) :
        Paced sizing n (k + 1) (f.quantum input buffer).framer h' :=
      ⟨hphase, hsome, hsettled, hleft.trans (Nat.sub_sub ..), havailable, hle, hge⟩
    cases hturn with
    | steady hevents heq =>
      refine Or.inr ⟨?_, Or.inr ⟨h', hpaced (by omega) (by omega)⟩⟩
      rw [hevents]
      nofun
    | spills hevents hge hle =>
      refine Or.inr ⟨fun e he => (hevents e he).not_underflow, Or.inr ⟨h', hpaced ?_ ?_⟩⟩
      · omega
      · exact Or.inr hge
    | missed hevents hzero hshort =>
      refine Or.inl ⟨hevents ▸ List.mem_singleton_self _, ?_⟩
      by_contra hlong
      -- What is left over is no longer than the lag, and the silence has covered that.
      have hresidue := hsettled.fits.residue_le_lag (k + 1)
      have hlag := hsettled.fits.warmup_bounds.1
      have hmul := Nat.mul_le_mul_right sizing.quantum.toNat (Nat.not_lt.mp hlong)
      rw [Nat.min_eq_right (by omega : n ≤ k)] at henough
      omega

theorem Paced.run (hf : Paced sizing n k f h) {run : List FramerCall}
    (hrun : ∀ c ∈ run, c.IsQuantum sizing.quantum.toNat)
    (hframe : ∀ j, (f.replay (run.take j)).engineFrame = sizing.frame) :
    (.underflow .output ∈ f.eventsDuring run ∧ n < sizing.warmupQuanta.toNat) ∨
      (∀ e ∈ f.eventsDuring run, ¬e.isUnderflow) ∧
        ((f.replay run).phase ≠ .running ∨
          ∃ h', Paced sizing n (k + run.length) (f.replay run) h') := by
  induction run generalizing f h k with
  | nil => exact Or.inr ⟨fun e he => absurd he List.not_mem_nil, Or.inr ⟨h, hf⟩⟩
  | cons c rest ih =>
    have hrest : ∀ c ∈ rest, c.IsQuantum sizing.quantum.toNat :=
      fun c hc => hrun c (List.mem_cons_of_mem _ hc)
    cases c with
    | quantum input buffer =>
      obtain ⟨hinput, hbuffer⟩ := hrun _ List.mem_cons_self
      rcases hf.quantum hroom (hframe 0) hinput hbuffer with
        ⟨hmissed, hshort⟩ | ⟨hquiet, hends | ⟨h', hnext⟩⟩
      · exact Or.inl ⟨List.mem_append_left _ hmissed, hshort⟩
      · have hstopped : (f.after (.quantum input buffer)).phase ≠ .running := by
          rw [after, hends]
          exact Phase.noConfusion
        obtain ⟨hnothing, hlast⟩ := silent_of_not_running hstopped hrest
        refine Or.inr ⟨?_, Or.inl (hlast ▸ hstopped)⟩
        rw [eventsDuring, hnothing, List.append_nil]
        exact hquiet
      · rcases ih hnext hrest fun j => hframe (j + 1) with ⟨hmissed, hshort⟩ | ⟨hquiet', hlast⟩
        · exact Or.inl ⟨List.mem_append_right _ hmissed, hshort⟩
        · refine Or.inr ⟨?_, ?_⟩
          · intro e he
            rcases List.mem_append.mp he with he | he
            · exact hquiet e he
            · exact hquiet' e he
          · rw [List.length_cons, Nat.add_comm rest.length, ← Nat.add_assoc]
            exact hlast
    | _ => exact (hrun _ List.mem_cons_self).elim

omit hroom

/-- Callbacks with a quantum in and a quantum out, over an engine whose frames stay as long as they
are. -/
structure Exchanges (sizing : Sizing) (f : Framer σ) (run : List FramerCall) : Prop where
  isQuantum : ∀ c ∈ run, c.IsQuantum sizing.quantum.toNat
  frame_eq : ∀ k, (f.replay (run.take k)).engineFrame = sizing.frame

/-- A start leaves nothing in the rings, whatever warm-up comes after it. -/
theorem paced_started {s : σ} (hstart : (started sizing s).result = .ok ()) (n : Nat) :
    ∃ h, Paced sizing n 0 { (started sizing s).framer with warmupLeft := n } h := by
  obtain ⟨hfits, e, lease, hpos, -, hframer⟩ := exists_of_started_ok hstart
  rw [← hfits.frame_eq] at hfits
  have hsettled : Holdings.Settled ⟨.ofCapacity sizing.ringCapacity.toNat hpos,
      .ofCapacity sizing.ringCapacity.toNat hpos, lease⟩ sizing :=
    ⟨Holdings.sized_ofCapacity hfits hpos lease, hfits.frame_pos⟩
  rw [hframer]
  refine ⟨_, rfl, rfl, hsettled, rfl, ?_, ?_, Or.inl ?_⟩ <;>
    simp [Holdings.backlog, SampleRing.ofCapacity]

/-- The warm-up is as long as it has to be, and no longer. It is the frame without the common divisor
of the two sizes, in quanta, rounded up. After it, the frames that have become whole always cover
what has been asked for; with any shorter one there comes a callback, as late as it may be, for
which they do not. So a framer that starts with this warm-up is never left without samples while a
quantum comes and goes with each callback, and one with a shorter warm-up is, unless its engine
fails. -/
theorem warmup_least (sizing : Sizing) (hframe : 0 < sizing.frame.toNat)
    (hquantum : 0 < sizing.quantum.toNat) (s : σ) :
    let frame := sizing.frame.toNat
    let quantum := sizing.quantum.toNat
    let warmup := sizing.warmupQuanta.toNat
    warmup = (frame - (Sizing.euclid sizing.frame sizing.quantum).toNat) ⌈/⌉ quantum ∧
    (∀ k, warmup ≤ k → (k - warmup) * quantum ≤ k * quantum / frame * frame) ∧
    (∀ n < warmup, ∃ k, n < k ∧ k * quantum / frame * frame < (k - n) * quantum) ∧
    ((started sizing s).result = .ok () → sizing.ringCapacity.toNat < Sizing.maxSize →
      (∀ run, (started sizing s).framer.Exchanges sizing run →
        ∀ side, .underflow side ∉ (started sizing s).framer.eventsDuring run) ∧
      ∀ n < warmup, ∃ k, n < k ∧ ∀ run : List FramerCall, run.length = k →
        let f : Framer σ := { (started sizing s).framer with warmupLeft := n }
        f.Exchanges sizing run → (f.replay run).phase = .running →
          .underflow .output ∈ f.eventsDuring run) := by
  intro frame quantum warmup
  refine ⟨?_, fun k hk => Sizing.warmup_covers hframe hquantum hk,
    fun n hn => Sizing.exists_uncovered hframe hquantum hn, fun hstart hring => ?_⟩
  · rw [Sizing.toNat_euclid, ← Sizing.toNat_lag hframe]
    exact Sizing.toNat_warmupQuanta hframe hquantum
  have hroom : frame + quantum ≤ sizing.ringCapacity.toNat := by
    obtain ⟨h, hpaced⟩ := paced_started hstart 0
    have hreq := hpaced.settled.fits.required_bounds.1
    omega
  constructor
  · intro run hrun side hmissed
    obtain ⟨h, hpaced⟩ := paced_started hstart warmup
    have hsame : { (started sizing s).framer with warmupLeft := warmup } =
        (started sizing s).framer := by
      obtain ⟨-, e, lease, hpos, -, hframer⟩ := exists_of_started_ok hstart
      rw [hframer]
    rw [hsame] at hpaced
    rcases hpaced.run hroom hrun.isQuantum hrun.frame_eq with ⟨-, hshort⟩ | ⟨hquiet, -⟩
    · exact absurd hshort (Nat.lt_irrefl _)
    · exact hquiet _ hmissed rfl
  · intro n hn
    obtain ⟨k, hk, hresidue⟩ := Sizing.exists_residue_eq sizing.quantum.toNat n hframe
    refine ⟨k, hk, ?_⟩
    intro run hlength f hrun hphase
    obtain ⟨h, hpaced⟩ := paced_started hstart n
    rcases hpaced.run hroom hrun.isQuantum hrun.frame_eq with
      ⟨hmissed, -⟩ | ⟨-, hends | ⟨h', hlast⟩⟩
    · exact hmissed
    · exact absurd hphase hends
    · -- More than the silence has put by would be left over in the input ring alone.
      have hover := Sizing.mul_lt_lag hframe hquantum hn
      have hleft := hlast.available_eq
      have hle := hlast.backlog_le
      rw [Nat.zero_add, hlength] at hleft hle
      rw [hresidue, ← Sizing.toNat_lag hframe] at hleft
      rw [Nat.min_eq_right hk.le] at hle
      have hpart : h'.input.available ≤ h'.backlog := Nat.le_add_right ..
      omega

/-- Quanta of three samples against frames of two: without its one callback of silence, the framer
has nothing to deliver in the end. -/
theorem warmup_least_of_three :
    let sizing : Sizing := ⟨48000, 3, 2, 2⟩
    let s := IdentityEngine.ofMemory 2 8
    0 < sizing.frame.toNat ∧ 0 < sizing.quantum.toNat ∧ sizing.warmupQuanta.toNat = (2 - 1) ⌈/⌉ 3 ∧
      (∃ k, 0 < k ∧ k * 3 / 2 * 2 < (k - 0) * 3) ∧
      ∃ k, 0 < k ∧ ∀ run : List FramerCall, run.length = k →
        let f : Framer IdentityEngine := { (started sizing s).framer with warmupLeft := 0 }
        f.Exchanges sizing run → (f.replay run).phase = .running →
          .underflow .output ∈ f.eventsDuring run := by
  intro sizing s
  obtain ⟨hwarmup, -, huncovered, hframer⟩ :=
    warmup_least sizing (by decide) (by decide) s
  have hstart : (started ⟨48000, 3, 2, 2⟩ (IdentityEngine.ofMemory 2 8)).result = .ok () := by
    rfl
  have hlt : 0 < sizing.warmupQuanta.toNat := by decide
  have heuclid : (Sizing.euclid sizing.frame sizing.quantum).toNat = 1 := by
    rw [Sizing.toNat_euclid]
    decide
  rw [heuclid] at hwarmup
  exact ⟨by decide, by decide, hwarmup, huncovered 0 hlt,
    (hframer hstart (by decide)).2 0 hlt⟩

end Framer

end AudioFraming
