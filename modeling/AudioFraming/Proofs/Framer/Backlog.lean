import AudioFraming.Proofs.Framer.Failure
import AudioFraming.Proofs.Sizing.Remainders

/-!
# After a disturbance

A host that has called with blocks of all lengths can leave the rings of a framer with too
little or too much in them. Once each callback brings a quantum and takes one, the backlog, which
is what waits in both rings, decides how long that lasts (`Turn`). An underflow needs a backlog
of less than a frame and makes it a quantum longer. Nothing makes the backlog shorter, except
that the output ring overflows, and then a frame or more is left in it (`turn_quantum`).

Nothing is asked of the engine but that its frames are as long as they were.
-/

namespace AudioFraming

/-- The output ring has overflowed. -/
def Event.Spill (e : Event) : Prop := ∃ n, e = .overflow .output n

theorem Event.Spill.not_underflow {e : Event} (h : e.Spill) : ¬e.isUnderflow := by
  obtain ⟨n, rfl⟩ := h
  simp [Event.isUnderflow]

/-- A callback that brings a given number of samples and takes as many. -/
def FramerCall.IsQuantum (quantum : Nat) : FramerCall → Prop
  | .quantum input buffer => input.length = quantum ∧ buffer.length = quantum
  | _ => False

namespace SampleRing

/-- A push evicts nothing, or it fills the ring up. -/
theorem push_cases {r s : SampleRing} {block : List Sample} {n : Nat} (side : Side)
    (h : r.push block = .ok (n, s)) :
    (overflowEvents side r.tally s.tally = [] ∧ s.available = r.available + block.length) ∨
      s.available = s.capacity := by
  have havail := available_push h
  rcases Nat.lt_or_ge r.capacity (r.available + block.length) with hlt | hle
  · right
    rw [capacity_push h, havail, Nat.min_eq_left hlt.le]
  · left
    have htally := tally_push h
    rw [if_neg (Nat.not_lt.mpr hle)] at htally
    refine ⟨if_neg ?_, havail.trans (Nat.min_eq_right hle)⟩
    rw [htally]
    split_ifs <;> exact Nat.lt_irrefl _

end SampleRing

namespace Progress

variable {σ : Type}

/-- What waits in both rings. -/
def backlog (p : Progress σ) : Nat := p.input.available + p.output.available

/-- Frames have moved from ring to ring. Either nothing is lost, or the output ring is full. -/
structure Settles (p q : Progress σ) : Prop where
  input_capacity : q.input.capacity = p.input.capacity
  output_capacity : q.output.capacity = p.output.capacity
  backlog_le : q.backlog ≤ p.backlog
  output_le : p.output.available ≤ q.output.available
  spill : ∀ e ∈ q.events, e ∈ p.events ∨ e.Spill
  even_or_full : q.events = p.events ∧ q.backlog = p.backlog ∨
    q.output.available = q.output.capacity

namespace Settles

variable {p q r : Progress σ}

theorem refl (p : Progress σ) : p.Settles p :=
  ⟨rfl, rfl, le_rfl, le_rfl, fun _ => Or.inl, Or.inl ⟨rfl, rfl⟩⟩

theorem trans (h : p.Settles q) (h' : q.Settles r) : p.Settles r where
  input_capacity := h'.input_capacity.trans h.input_capacity
  output_capacity := h'.output_capacity.trans h.output_capacity
  backlog_le := h'.backlog_le.trans h.backlog_le
  output_le := h.output_le.trans h'.output_le
  spill e he := by
    rcases h'.spill e he with he | he
    · exact h.spill e he
    · exact Or.inr he
  even_or_full := by
    rcases h'.even_or_full with ⟨hevents, heven⟩ | hfull
    · rcases h.even_or_full with ⟨hevents', heven'⟩ | hfull
      · exact Or.inl ⟨hevents.trans hevents', heven.trans heven'⟩
      · -- A full ring stays full.
        have hle : r.output.available ≤ r.output.capacity := r.output.available_le
        have hgrows := h'.output_le
        have hcapacity := h'.output_capacity
        exact Or.inr (by omega)
    · exact Or.inr hfull

end Settles

theorem output_absorb (p : Progress σ) (block : List Sample) :
    (p.absorb block).2.output = p.output := by
  unfold absorb
  dsimp only
  split <;> rfl

theorem capacity_absorb (p : Progress σ) (block : List Sample) :
    (p.absorb block).2.input.capacity = p.input.capacity := by
  unfold absorb
  dsimp only
  split
  · rfl
  · rename_i hpush
    exact SampleRing.capacity_push hpush

/-- A block is queued without an eviction. -/
theorem exists_absorb_of_room (p : Progress σ) {block : List Sample} (hne : block ≠ [])
    (hroom : p.input.available + block.length ≤ p.input.capacity) :
    ∃ ring, p.absorb block = (none, { p with input := ring }) ∧
      ring.capacity = p.input.capacity ∧
      ring.available = p.input.available + block.length := by
  obtain ⟨ring, hpush⟩ := p.input.exists_push (le_of_add_le_right hroom)
  have htally := SampleRing.tally_push hpush
  rw [if_neg hne, if_neg (Nat.not_lt.mpr hroom)] at htally
  have hquiet : overflowEvents .input p.input.tally ring.tally = [] := by
    simp [overflowEvents, htally]
  refine ⟨ring, ?_, SampleRing.capacity_push hpush, ?_⟩
  · simp [absorb, hpush, hne, hquiet]
  · rw [SampleRing.available_push hpush, Nat.min_eq_right hroom]

variable [Engine σ] {lease : Lease} {frame : Nat} {p q r : Progress σ}

theorem Passes.settles (hpos : 0 < frame) (hcap : frame ≤ p.output.capacity)
    (h : p.Passes lease frame q) : p.Settles q := by
  have hwaits := h.1
  obtain ⟨loaded, e, made, ring, hload, -, hread, hpush, heq⟩ := h.exists_made hpos hcap
  obtain ⟨start, -, rfl⟩ := exists_of_load hpos hwaits hload
  have hlen := Arena.length_of_read hread
  have havail := SampleRing.available_push hpush
  have hle : p.output.available ≤ p.output.capacity := p.output.available_le
  rw [heq]
  refine ⟨rfl, SampleRing.capacity_push hpush, ?_, ?_, ?_, ?_⟩
  · simp only [backlog, SampleRing.skip]
    omega
  · dsimp only
    omega
  · intro event hevent
    rcases List.mem_append.mp hevent with hevent | hevent
    · exact Or.inl hevent
    · unfold overflowEvents at hevent
      split_ifs at hevent
      · exact Or.inr ⟨_, List.mem_singleton.mp hevent⟩
      · cases hevent
  · rcases SampleRing.push_cases .output hpush with ⟨hquiet, hgrows⟩ | hfull
    · refine Or.inl ⟨by rw [hquiet, List.append_nil], ?_⟩
      simp only [backlog, SampleRing.skip]
      omega
    · exact Or.inr hfull

theorem settles_of_reaches (hpos : 0 < frame) (hcap : frame ≤ p.output.capacity)
    (h : Relation.ReflTransGen (Passes lease frame) p q) : p.Settles q := by
  induction h with
  | refl => exact .refl p
  | tail hreach hpasses ih =>
    exact ih.trans (hpasses.settles hpos (hcap.trans_eq ih.output_capacity.symm))

/-- A lost frame emits nothing. -/
theorem Loses.events_eq (hpos : 0 < frame) (hwaits : frame ≤ p.input.available)
    {e : EngineError} (h : p.Loses lease frame e r) : r.events = p.events := by
  cases h with
  | input => rfl
  | engine hload =>
    obtain ⟨start, -, rfl⟩ := exists_of_load hpos hwaits hload
    rfl
  | output hload =>
    obtain ⟨start, -, rfl⟩ := exists_of_load hpos hwaits hload
    rfl

/-- A callback that does not fail leaves less than a frame. -/
theorem advance_settles (hpos : 0 < frame) (hcap : frame ≤ p.output.capacity)
    {block : List Sample} (h : p.advance lease frame block = (none, r)) :
    ∃ q, p.absorb block = (none, q) ∧ q.Settles r ∧
      r.input.available = q.input.available % frame := by
  unfold advance at h
  rcases habsorb : p.absorb block with ⟨e | e, q⟩
  · simp only [habsorb, passLimit, if_neg hpos.ne'] at h
    obtain ⟨hreach, hmod⟩ := reaches_of_drain hpos _ q le_rfl h
    have houtput := p.output_absorb block
    rw [habsorb] at houtput
    exact ⟨q, rfl, settles_of_reaches hpos (houtput ▸ hcap) hreach, hmod⟩
  · simp only [habsorb] at h
    cases h

/-- With room for the block, a callback that fails has emitted spills only. -/
theorem spill_of_advance (hpos : 0 < frame) (hcap : frame ≤ p.output.capacity)
    {block : List Sample} (hne : block ≠ [])
    (hroom : p.input.available + block.length ≤ p.input.capacity) {e : SetupError}
    (h : p.advance lease frame block = (some e, r)) :
    ∀ event ∈ r.events, event ∈ p.events ∨ event.Spill := by
  obtain ⟨ring, habsorb, -⟩ := p.exists_absorb_of_room hne hroom
  cases (advance_eq_some_iff hpos).mp h with
  | tooLong hlong => omega
  | frame habsorb' hfalls =>
    obtain rfl := (Prod.mk.inj (habsorb.symm.trans habsorb')).2
    obtain ⟨q, hreach, hwaits, hloses⟩ := hfalls
    rw [hloses.events_eq hpos hwaits]
    exact (settles_of_reaches (p := { p with input := ring }) hpos hcap hreach).spill

end Progress

namespace Holdings

/-- What waits in both rings. -/
def backlog (h : Holdings) : Nat := h.input.available + h.output.available

/-- Between callbacks, no whole frame waits for the engine. -/
structure Settled (h : Holdings) (sizing : Sizing) : Prop extends
    h.Sized sizing sizing.frame where
  available_lt : h.input.available < sizing.frame.toNat

theorem Settled.frame_le {h : Holdings} {sizing : Sizing} (hs : h.Settled sizing) :
    sizing.frame.toNat ≤ h.output.capacity :=
  hs.fits.frame_le_ringCapacity.trans_eq hs.output_capacity.symm

end Holdings

namespace Framer

variable {σ : Type}

/-- What a callback with a quantum in and a quantum out does to the backlog, with some callbacks of
silence left, and the events that tell of it. -/
inductive Turn (frame quantum left : Nat) (h h' : Holdings) (events : List Event) : Prop
  /-- As much comes as goes, or more during the warm-up. -/
  | steady (hevents : events = [])
      (heq : h'.backlog = h.backlog + if left = 0 then 0 else quantum)
  /-- The output ring overflows. -/
  | spills (hevents : ∀ e ∈ events, e.Spill) (hge : frame ≤ h'.backlog)
      (hle : h'.backlog ≤ h.backlog + if left = 0 then 0 else quantum)
  /-- The output ring underflows, since what is left over in the input ring is more than there was
  in both. -/
  | missed (hevents : events = [.underflow .output]) (hleft : left = 0)
      (hshort : h.backlog < h'.input.available) (heq : h'.backlog = h.backlog + quantum)

/-- A backlog that a quantum has joined, and then one is asked for. -/
theorem turn_of_settles {frame quantum left : Nat} {h : Holdings} {lease : Lease}
    {p q : Progress σ} {buffer : List Sample} {ring : SampleRing} {o : Outcome σ Delivery}
    (hsettles : q.Settles p) (hhands : Hands left p buffer ring o)
    (hroom : frame + quantum ≤ p.output.capacity)
    (hbacklog : q.backlog = h.backlog + quantum) (hevents : q.events = [])
    (hbuffer : buffer.length = quantum) :
    Turn frame quantum left h ⟨p.input, ring, lease⟩ o.events := by
  have hle := hsettles.backlog_le
  have hspill : ∀ e ∈ p.events, e.Spill := by
    intro e he
    rcases hsettles.spill e he with he | he
    · rw [hevents] at he
      cases he
    · exact he
  have hstays := hsettles.even_or_full
  rw [hbacklog] at hle hstays
  rw [hevents] at hstays
  have hbefore : p.backlog = p.input.available + p.output.available := rfl
  have hafter : Holdings.backlog ⟨p.input, ring, lease⟩ = p.input.available + ring.available := rfl
  cases hhands with
  | warmup hleft hring hblock hsame =>
    subst hring
    rw [hsame]
    rcases hstays with ⟨hquiet, heven⟩ | hfull
    · refine .steady hquiet ?_
      rw [if_neg hleft.ne']
      omega
    · refine .spills hspill (by omega) ?_
      rw [if_neg hleft.ne']
      omega
  | missed hleft hshort hcapacity hlist htally hblock hsame =>
    have hring : ring.available = p.output.available := by
      simpa using congrArg List.length hlist
    rcases hstays with ⟨hquiet, heven⟩ | hfull
    · rw [hquiet] at hsame
      have hshort : h.backlog < p.input.available := by omega
      exact .missed hsame hleft hshort (by omega)
    · -- A full ring has a quantum to deliver.
      omega
  | filled hleft hfits hcapacity hlist htally hblock hsame =>
    have hring : ring.available = p.output.available - quantum := by
      simpa [hbuffer] using congrArg List.length hlist
    rw [hbuffer] at hfits
    rw [hsame]
    rcases hstays with ⟨hquiet, heven⟩ | hfull
    · refine .steady hquiet ?_
      rw [if_pos hleft]
      omega
    · refine .spills hspill (by omega) ?_
      rw [if_pos hleft]
      omega

/-- A callback of a running framer with a quantum in and a quantum out. -/
inductive TurnCase (sizing : Sizing) (f : Framer σ) (h : Holdings) (o : Outcome σ Delivery) : Prop
  | fails (hphase : o.framer.phase = .bypassed)
      (hevents : ∀ e ∈ o.events, e.Spill ∨ ¬e.isUnderflow ∧ ¬e.isOverflow)
  | goesOn (h' : Holdings) (hphase : o.framer.phase = .running)
      (hsome : o.framer.holdings = some h') (hsettled : h'.Settled sizing)
      (hleft : o.framer.warmupLeft = f.warmupLeft - 1)
      (havailable : h'.input.available =
        (h.input.available + sizing.quantum.toNat) % sizing.frame.toNat)
      (hturn : Turn sizing.frame.toNat sizing.quantum.toNat f.warmupLeft h h' o.events)

section

variable [Engine σ] {sizing : Sizing} {f : Framer σ} {h : Holdings}
  (hphase : f.phase = .running) (hsome : f.holdings = some h) (hsettled : h.Settled sizing)
  (hframe : f.engineFrame = sizing.frame)
include hphase hsome hsettled hframe

/-- A callback with any block leaves the rings settled, or the framer does not run any more. -/
theorem settled_quantum (input buffer : List Sample)
    (hruns : (f.quantum input buffer).framer.phase = .running) :
    ∃ h', (f.quantum input buffer).framer.holdings = some h' ∧ h'.Settled sizing := by
  have hpos := hsettled.fits.frame_pos
  cases f.quantum_case input buffer with
  | idle hidle => exact absurd ⟨hphase, h, hsome⟩ hidle
  | fails h₀ p e _ _ _ heq =>
    rw [heq] at hruns
    cases hruns
  | delivers h₀ p ring _ hsome₀ hadvance hframer hgo hhands =>
    obtain rfl := Option.some.inj (hsome.symm.trans hsome₀)
    rw [hframe] at hadvance
    obtain ⟨q, habsorb, hsettles, hmod⟩ :=
      Progress.advance_settles (p := f.progress h) hpos hsettled.frame_le hadvance
    have hinput := (f.progress h).capacity_absorb input
    have houtput := (f.progress h).output_absorb input
    rw [habsorb] at hinput houtput
    rw [hframer]
    refine ⟨_, rfl, hsettled.of_capacity_eq ?_ ?_, ?_⟩
    · exact hsettles.input_capacity.trans hinput
    · rw [hhands.capacity_eq, hsettles.output_capacity, houtput]
      rfl
    · exact hmod ▸ Nat.mod_lt _ hpos

/-- The backlog after a quantum in and a quantum out. -/
theorem turn_quantum
    (hroom : sizing.frame.toNat + sizing.quantum.toNat ≤ sizing.ringCapacity.toNat)
    {input buffer : List Sample} (hinput : input.length = sizing.quantum.toNat)
    (hbuffer : buffer.length = sizing.quantum.toNat) :
    TurnCase sizing f h (f.quantum input buffer) := by
  have hpos := hsettled.fits.frame_pos
  have hne : input ≠ [] := List.ne_nil_of_length_pos (hinput ▸ hsettled.fits.quantum_pos)
  have hin := hsettled.input_capacity
  have hout := hsettled.output_capacity
  have hlt := hsettled.available_lt
  have hfit : h.input.available + input.length ≤ h.input.capacity := by omega
  cases f.quantum_case input buffer with
  | idle hruns => exact absurd ⟨hphase, h, hsome⟩ hruns
  | fails h₀ p e _ hsome₀ hadvance heq =>
    obtain rfl := Option.some.inj (hsome.symm.trans hsome₀)
    rw [hframe] at hadvance
    have hspill := Progress.spill_of_advance (p := f.progress h) hpos hsettled.frame_le hne hfit
      hadvance
    rw [heq]
    refine .fails rfl ?_
    intro event hevent
    rcases List.mem_append.mp hevent with hevent | hevent
    · rcases hspill event hevent with hstart | hspill
      · cases hstart
      · exact Or.inl hspill
    · right
      simp only [List.mem_cons, List.not_mem_nil, or_false] at hevent
      rcases hevent with rfl | rfl
      · cases e <;> simp [Event.ofFailure, Event.isUnderflow, Event.isOverflow]
      · simp [Event.isUnderflow, Event.isOverflow]
  | delivers h₀ p ring hruns hsome₀ hadvance hframer hgo hhands =>
    obtain rfl := Option.some.inj (hsome.symm.trans hsome₀)
    rw [hframe] at hadvance
    obtain ⟨q, habsorb, hsettles, hmod⟩ :=
      Progress.advance_settles (p := f.progress h) hpos hsettled.frame_le hadvance
    obtain ⟨queued, habsorb', hcapacity, havail⟩ :=
      (f.progress h).exists_absorb_of_room hne hfit
    obtain rfl := (Prod.mk.inj (habsorb.symm.trans habsorb')).2
    have hrunning : (f.quantum input buffer).framer.phase = .running := by
      rw [hframer]
      exact hphase
    obtain ⟨h', hsome', hsettled'⟩ :=
      settled_quantum hphase hsome hsettled hframe input buffer hrunning
    have hholdings := congrArg Framer.holdings hframer
    obtain rfl := Option.some.inj (hsome'.symm.trans hholdings)
    have hroom' : sizing.frame.toNat + sizing.quantum.toNat ≤ p.output.capacity :=
      hroom.trans_eq (hout.symm.trans hsettles.output_capacity.symm)
    have hjoined : queued.available + h.output.available =
        h.input.available + h.output.available + sizing.quantum.toNat := by
      rw [havail, hinput]
      exact Nat.add_right_comm ..
    refine .goesOn _ hrunning hsome' hsettled' (congrArg Framer.warmupLeft hframer) ?_
      (turn_of_settles hsettles hhands hroom' hjoined rfl hbuffer :)
    exact hmod.trans (congrArg (· % sizing.frame.toNat) (hinput ▸ havail))

end

/-! ## Sessions -/

/-- While a framer runs or pauses, its rings are settled. -/
structure Settled (sizing : Sizing) (f : Framer σ) : Prop where
  ne_created : f.phase ≠ .created
  rings : f.phase = .running ∨ f.phase = .paused →
    ∃ h, f.holdings = some h ∧ h.Settled sizing

variable [Engine σ] {sizing : Sizing} {f : Framer σ} {h : Holdings}

theorem settled_started {s : σ} (hstart : (started sizing s).result = .ok ()) :
    (started sizing s).framer.Settled sizing := by
  obtain ⟨hfits, e, lease, hpos, -, hframer⟩ := exists_of_started_ok hstart
  rw [← hfits.frame_eq] at hfits
  have hsized := Holdings.sized_ofCapacity hfits hpos lease
  rw [hframer]
  exact ⟨nofun, fun _ => ⟨_, rfl, hsized, hfits.frame_pos⟩⟩

namespace Settled

theorem apply (hf : f.Settled sizing) (c : Command) : (f.apply c).framer.Settled sizing := by
  refine ⟨fun hcreated => hf.ne_created ((f.moves_after (.command c)).eq_created hcreated), ?_⟩
  rcases f.apply_eq c with happly | ⟨q, hafter, happly⟩
  · rw [happly]
    exact hf.rings
  · rw [happly]
    intro hphase
    rcases Phase.after_cases hafter with ⟨rfl, -⟩ | ⟨hbefore, hq⟩
    · rcases hphase with hphase | hphase <;> cases hphase
    · have hne : q ≠ .stopped := by
        rintro rfl
        rcases hq with hq | hq <;> cases hq
      rw [if_neg hne]
      exact hf.rings hbefore

theorem after (hf : f.Settled sizing) (hframe : f.engineFrame = sizing.frame) (c : FramerCall) :
    (f.after c).Settled sizing := by
  cases c with
  | start =>
    rw [Framer.after, start_of_ne hf.ne_created]
    exact hf
  | command c => exact hf.apply c
  | stop => exact hf.apply .stop
  | quantum input buffer =>
    refine ⟨fun hcreated => hf.ne_created ((f.moves_after _).eq_created hcreated), ?_⟩
    by_cases hphase : f.phase = .running
    · obtain ⟨h, hsome, hsettled⟩ := hf.rings (Or.inl hphase)
      rintro (hruns | hpaused)
      · exact settled_quantum hphase hsome hsettled hframe input buffer hruns
      · obtain ⟨-, hends, -⟩ := quantum_running hphase hsome input buffer
        rw [Framer.after] at hpaused
        rcases hends with hends | hends <;> rw [hends] at hpaused <;> cases hpaused
    · rw [Framer.after, (quantum_idle hphase input buffer).1]
      exact hf.rings

theorem replay {calls : List FramerCall} (hf : f.Settled sizing)
    (hframe : ∀ k, (f.replay (calls.take k)).engineFrame = sizing.frame) :
    (f.replay calls).Settled sizing := by
  induction calls generalizing f with
  | nil => exact hf
  | cons c rest ih => exact ih (hf.after (hframe 0) c) fun k => hframe (k + 1)

end Settled

/-- What the callbacks of a framer with a given backlog may emit. -/
structure Glitches (frame quantum backlog : Nat) (events : List Event) : Prop where
  bounded : 0 < events.countP Event.isUnderflow →
    backlog + events.countP Event.isUnderflow * quantum + 2 ≤ frame + quantum
  input : ∀ n, .overflow .input n ∉ events
  calm : events.Pairwise fun a b => a.Spill → ¬b.isUnderflow

/-- Events among which there is no underflow. -/
theorem glitches_of_quiet {frame quantum backlog : Nat} {events : List Event}
    (hevents : ∀ e ∈ events, e.Spill ∨ ¬e.isUnderflow ∧ ¬e.isOverflow) :
    Glitches frame quantum backlog events := by
  have hquiet : ∀ e ∈ events, ¬e.isUnderflow := by
    intro e he
    rcases hevents e he with hspill | ⟨hquiet, -⟩
    · exact hspill.not_underflow
    · exact hquiet
  refine ⟨fun hpos => ?_, fun n hn => ?_, List.pairwise_of_forall_mem_list ?_⟩
  · rw [List.countP_eq_zero.mpr hquiet] at hpos
    cases hpos
  · rcases hevents _ hn with ⟨m, hspill⟩ | ⟨-, hover⟩
    · cases hspill
    · exact hover rfl
  · exact fun a _ b hb _ => hquiet b hb

/-- The glitches of a callback and those of the callbacks after it. -/
theorem Turn.glitches {frame quantum left : Nat} {h h' : Holdings} {events later : List Event}
    (hturn : Turn frame quantum left h h' events) (hlt : h'.input.available < frame)
    (hlater : Glitches frame quantum h'.backlog later) :
    Glitches frame quantum h.backlog (events ++ later) := by
  have hbounded := hlater.bounded
  cases hturn with
  | steady hevents heq =>
    subst hevents
    refine ⟨fun hpos => ?_, hlater.input, hlater.calm⟩
    have hlate := hbounded hpos
    rw [List.nil_append]
    omega
  | spills hevents hge =>
    have hquiet : Glitches frame quantum h.backlog events :=
      glitches_of_quiet fun e he => Or.inl (hevents e he)
    -- The output ring holds a frame for good.
    have hnone : later.countP Event.isUnderflow = 0 := by
      by_contra hsome
      have hlate := hbounded (Nat.pos_of_ne_zero hsome)
      have hone := Nat.le_mul_of_pos_left quantum (Nat.pos_of_ne_zero hsome)
      omega
    refine ⟨?_, fun n hn => ?_, List.pairwise_append.mpr ⟨hquiet.calm, hlater.calm, ?_⟩⟩
    · rw [List.countP_append, hnone]
      exact hquiet.bounded
    · rcases List.mem_append.mp hn with hn | hn
      · exact hquiet.input n hn
      · exact hlater.input n hn
    · exact fun a _ b hb _ => List.countP_eq_zero.mp hnone b hb
  | missed hevents hleft hshort heq =>
    subst hevents
    refine ⟨fun _ => ?_, fun n hn => ?_, List.pairwise_cons.mpr ⟨?_, hlater.calm⟩⟩
    · rw [List.singleton_append, List.countP_cons_of_pos rfl, Nat.succ_mul]
      rcases Nat.eq_zero_or_pos (later.countP Event.isUnderflow) with hzero | hpos
      · rw [hzero]
        omega
      · have hlate := hbounded hpos
        omega
    · rcases List.mem_cons.mp hn with hn | hn
      · cases hn
      · exact hlater.input n hn
    · rintro b - ⟨n, hspill⟩
      cases hspill

/-- An underflow needs a backlog of less than a frame, and makes it a quantum longer. -/
theorem Glitches.count_le {frame quantum backlog : Nat} {events : List Event}
    (h : Glitches frame quantum backlog events) (hquantum : 0 < quantum) :
    events.countP Event.isUnderflow ≤ (frame - 1) ⌈/⌉ quantum := by
  by_contra hmore
  obtain ⟨n, hn⟩ := Nat.exists_eq_succ_of_ne_zero (Nat.ne_zero_of_lt (Nat.not_le.mp hmore))
  have hbounded := h.bounded (hn ▸ n.succ_pos)
  rw [hn, Nat.not_le, Nat.lt_succ_iff, ceilDiv_le_iff_le_mul hquantum, Nat.mul_comm] at hmore
  rw [hn, Nat.succ_mul] at hbounded
  omega

theorem silent_of_not_running (hphase : f.phase ≠ .running) {quantum : Nat}
    {run : List FramerCall} (hrun : ∀ c ∈ run, c.IsQuantum quantum) :
    f.eventsDuring run = [] ∧ (f.replay run).phase = f.phase := by
  induction run generalizing f with
  | nil => exact ⟨rfl, rfl⟩
  | cons c rest ih =>
    cases c with
    | quantum input buffer =>
      obtain ⟨hframer, hevents⟩ := quantum_idle hphase input buffer
      have hsame : (f.after (.quantum input buffer)).phase = f.phase := by
        rw [after, hframer]
      obtain ⟨hrest, hlast⟩ := ih (hsame ▸ hphase) fun c hc => hrun c (List.mem_cons_of_mem _ hc)
      refine ⟨?_, hlast.trans hsame⟩
      rw [eventsDuring, eventsOf, hevents, hrest, List.append_nil]
    | _ => exact (hrun _ List.mem_cons_self).elim

/-- From settled rings on, the backlog bounds the glitches. -/
theorem glitches_eventsDuring
    (hroom : sizing.frame.toNat + sizing.quantum.toNat ≤ sizing.ringCapacity.toNat)
    {run : List FramerCall} (hrun : ∀ c ∈ run, c.IsQuantum sizing.quantum.toNat)
    (hphase : f.phase = .running) (hsome : f.holdings = some h) (hsettled : h.Settled sizing)
    (hframe : ∀ k, (f.replay (run.take k)).engineFrame = sizing.frame) :
    Glitches sizing.frame.toNat sizing.quantum.toNat h.backlog (f.eventsDuring run) := by
  induction run generalizing f h with
  | nil => exact glitches_of_quiet fun e he => absurd he List.not_mem_nil
  | cons c rest ih =>
    have hrest : ∀ c ∈ rest, c.IsQuantum sizing.quantum.toNat :=
      fun c hc => hrun c (List.mem_cons_of_mem _ hc)
    cases c with
    | quantum input buffer =>
      obtain ⟨hinput, hbuffer⟩ := hrun _ List.mem_cons_self
      cases turn_quantum hphase hsome hsettled (hframe 0) hroom hinput hbuffer with
      | fails hends hevents =>
        have hstopped : (f.after (.quantum input buffer)).phase ≠ .running := by
          rw [after, hends]
          exact Phase.noConfusion
        obtain ⟨hnothing, -⟩ := silent_of_not_running hstopped hrest
        rw [eventsDuring, hnothing, List.append_nil]
        exact glitches_of_quiet hevents
      | goesOn h' hphase' hsome' hsettled' hleft havailable hturn =>
        have hlater := ih hrest hphase' hsome' hsettled' fun k => hframe (k + 1)
        exact hturn.glitches hsettled'.available_lt hlater
    | _ => exact (hrun _ List.mem_cons_self).elim

/-- A disturbance does not last. Whatever has happened to a framer, once each callback brings a
quantum and takes one, at most as many of them are left without samples as quanta fit into a frame,
rounded up; the input ring never overflows; and once the output ring has overflowed, nobody is left
without samples any more. The frame size of the engine is to stay the same. The capacity of the
rings is to be a size that did not saturate: no memory holds a larger ring. -/
theorem glitches_bounded {s : σ} (hstart : (started sizing s).result = .ok ())
    (hring : sizing.ringCapacity.toNat < Sizing.maxSize) {history run : List FramerCall}
    (hrun : ∀ c ∈ run, c.IsQuantum sizing.quantum.toNat)
    (hframe : ∀ k, ((started sizing s).framer.replay
      ((history ++ run).take k)).engineFrame = sizing.frame) :
    let events := ((started sizing s).framer.replay history).eventsDuring run
    events.countP Event.isUnderflow ≤ (sizing.frame.toNat - 1) ⌈/⌉ sizing.quantum.toNat ∧
      (∀ n, .overflow .input n ∉ events) ∧
      events.Pairwise fun a b => a.Spill → ¬b.isUnderflow := by
  intro events
  have hsettled : ((started sizing s).framer.replay history).Settled sizing := by
    refine (settled_started hstart).replay fun k => ?_
    have hearlier := hframe (min k history.length)
    rwa [List.take_append_of_le_length (Nat.min_le_right ..), ← List.take_eq_take_min] at hearlier
  by_cases hphase : ((started sizing s).framer.replay history).phase = .running
  · obtain ⟨h, hsome, hrings⟩ := hsettled.rings (Or.inl hphase)
    have hroom : sizing.frame.toNat + sizing.quantum.toNat ≤ sizing.ringCapacity.toNat := by
      have hreq := hrings.fits.required_bounds.1
      omega
    have hglitches := glitches_eventsDuring hroom hrun hphase hsome hrings fun k => by
      have hlater := hframe (history.length + k)
      rwa [List.take_length_add_append, replay_append] at hlater
    exact ⟨hglitches.count_le hrings.fits.quantum_pos, hglitches.input, hglitches.calm⟩
  · have hnothing : events = [] := (silent_of_not_running hphase hrun).1
    rw [hnothing]
    exact ⟨Nat.zero_le _, fun n => List.not_mem_nil, .nil⟩

/-- The bound is reached after an overflow, a pause, and a buffer that has emptied the rings. -/
theorem glitches_bounded_of_empty_rings :
    let start := started ⟨48000, 1, 4, 1⟩
      (⟨.ofMemory 4 8, { negate := true }, 0⟩ : ScriptedEngine)
    let history : List FramerCall := [.quantum (Sample.silence 8) [], .quantum (Sample.silence 4) [],
      .command .pause, .command .resume, .quantum [] [], .quantum [] (Sample.silence 8)]
    let run : List FramerCall := List.replicate 5 (.quantum [.one] [.one])
    let events := (start.framer.replay history).eventsDuring run
    start.result = .ok () ∧ (start.framer.eventsDuring history).countP Event.isOverflow = 1 ∧
      events.countP Event.isUnderflow = 3 ∧
      events.countP Event.isUnderflow ≤ (4 - 1) ⌈/⌉ 1 ∧ (∀ n, .overflow .input n ∉ events) ∧
      events.Pairwise fun a b => a.Spill → ¬b.isUnderflow := by
  intro start history run events
  have hstart : start.result = .ok () := by rfl
  have hrun : ∀ c ∈ run, c.IsQuantum 1 := by
    intro c hc
    obtain rfl := List.eq_of_mem_replicate hc
    exact ⟨rfl, rfl⟩
  have hframe : ∀ k, (start.framer.replay ((history ++ run).take k)).engineFrame = 4 := by
    intro k
    by_cases hk : k < 11
    · interval_cases k <;> decide +kernel
    · rw [List.take_of_length_le (Nat.not_lt.mp hk)]
      decide +kernel
  have hbounded := glitches_bounded hstart (by decide +kernel) hrun hframe
  exact ⟨hstart, by decide +kernel, by decide +kernel, hbounded⟩

end Framer

end AudioFraming
