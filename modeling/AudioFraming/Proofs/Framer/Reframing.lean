import AudioFraming.Proofs.Arena.FirstFit
import AudioFraming.Proofs.Framer.Failure
import AudioFraming.Proofs.Framer.Pauses
import AudioFraming.Proofs.Framer.Services

/-!
# Reframing

The host cuts its stream as it likes, and the engine gets the same frames. After each callback,
all frames of the stream so far have gone through the engine, in order, and what is left over
waits in the input ring (`Framer.Reframed`). A block that comes in only lengthens the stream
(`Progress.Reframes.absorb`), a frame that goes through is the next one of it
(`Progress.Reframes.pass`), and none is lost (`Progress.Reframes.not_loses`). So what is asked of
the engine can be read off the stream alone, and so can what it makes of it
(`Framer.reframes_exactly`).

Engines are arbitrary, as long as they serve every frame (`Lease.Reliable`).
-/

namespace AudioFraming

/-- Input has found no room: older samples were evicted for it, or it was refused. -/
def Event.losesInput : Event → Bool
  | overflow .input _ => true
  | misconfigured (.pushExceedsCapacity ..) => true
  | _ => false

/-! ## Frames of a stream -/

/-- The first frames of a stream. -/
def leadingFrames (frame count : Nat) (stream : List Sample) : List (List Sample) :=
  (List.range count).map fun i => (stream.drop (i * frame)).take frame

section leadingFrames

variable {frame count : Nat} {stream : List Sample}

@[simp] theorem length_leadingFrames : (leadingFrames frame count stream).length = count := by
  simp [leadingFrames]

theorem leadingFrames_succ : leadingFrames frame (count + 1) stream =
    leadingFrames frame count stream ++ [(stream.drop (count * frame)).take frame] := by
  simp [leadingFrames, List.range_succ]

theorem getElem?_leadingFrames {i : Nat} (hi : i < count) :
    (leadingFrames frame count stream)[i]? = some ((stream.drop (i * frame)).take frame) := by
  simp [leadingFrames, hi]

theorem mul_add_le_of_mem_range (frame : Nat) {i : Nat} (hi : i ∈ List.range count) :
    i * frame + frame ≤ count * frame := by
  rw [← Nat.succ_mul]
  exact Nat.mul_le_mul_right frame (List.mem_range.mp hi)

variable (h : count * frame ≤ stream.length)
include h

/-- Frames that are there do not change when the stream goes on. -/
theorem leadingFrames_append (more : List Sample) :
    leadingFrames frame count (stream ++ more) = leadingFrames frame count stream := by
  refine List.map_congr_left fun i hi => ?_
  have hend := mul_add_le_of_mem_range frame hi
  rw [List.drop_append_of_le_length (by omega), List.take_append_of_le_length]
  rw [List.length_drop]
  omega

theorem length_of_mem_leadingFrames {block : List Sample}
    (hblock : block ∈ leadingFrames frame count stream) : block.length = frame := by
  obtain ⟨i, hi, rfl⟩ := List.mem_map.mp hblock
  have hend := mul_add_le_of_mem_range frame hi
  rw [List.length_take, List.length_drop]
  omega

theorem flatten_leadingFrames :
    (leadingFrames frame count stream).flatten = stream.take (count * frame) := by
  induction count with
  | zero => simp [leadingFrames]
  | succ count ih =>
    rw [Nat.succ_mul] at h
    rw [leadingFrames_succ, List.flatten_append, ih (by omega), List.flatten_singleton,
      Nat.succ_mul, List.take_add]

end leadingFrames

namespace SampleRing

/-- What a ring can be after blocks have been pushed into it, in this order, and any buffers have
been filled from it in between. -/
inductive Fed (r : SampleRing) : List (List Sample) → SampleRing → Prop
  | refl : Fed r [] r
  | push {blocks : List (List Sample)} {s t : SampleRing} {block : List Sample} {n : Nat}
      (h : Fed r blocks s) (hpush : s.push block = .ok (n, t)) : Fed r (blocks ++ [block]) t
  | pull {blocks : List (List Sample)} {s : SampleRing} (buffer : List Sample)
      (h : Fed r blocks s) : Fed r blocks (s.pull buffer).ring

namespace Fed

variable {r s : SampleRing} {blocks : List (List Sample)}

theorem capacity_eq (h : r.Fed blocks s) : s.capacity = r.capacity := by
  induction h with
  | refl => rfl
  | push h hpush ih => exact (capacity_push hpush).trans ih
  | pull buffer h ih => exact (capacity_pull _ buffer).trans ih

/-- What waits is the end of all that has been pushed. -/
theorem suffix (h : r.Fed blocks s) : s.toList <:+ r.toList ++ blocks.flatten := by
  induction h with
  | refl => simp
  | @push blocks s t block n h hpush ih =>
    rw [toList_push hpush, List.flatten_append, List.flatten_singleton, ← List.append_assoc]
    exact (List.drop_suffix ..).trans (List.suffix_append_inj_of_length_eq rfl |>.mpr ⟨ih, rfl⟩)
  | @pull blocks s buffer h ih =>
    rw [toList_pull]
    exact (List.drop_suffix ..).trans ih

end Fed

end SampleRing

namespace Progress

variable {σ : Type}

/-- All that happens to a block that is queued. -/
theorem exists_of_absorb {p q : Progress σ} {block : List Sample}
    (h : p.absorb block = (none, q)) :
    ∃ n ring, p.input.push block = .ok (n, ring) ∧ q = { p with
      input := ring
      events := (if block = [] then p.events ++ [.emptyPush .input] else p.events) ++
        overflowEvents .input p.input.tally ring.tally } := by
  unfold absorb at h
  dsimp only at h
  split at h
  · cases h
  · rename_i n ring hpush
    exact ⟨n, ring, hpush, (Prod.mk.inj h).2.symm⟩

variable [Engine σ]

/-- A stream has come in, and all of its frames but those that still wait have gone through. -/
structure Reframes (lease : Lease) (frame : Nat) (e : σ) (ring : SampleRing)
    (stream : List Sample) (p : Progress σ) : Prop where
  frames_le : p.frames * frame ≤ stream.length
  input_eq : p.input.toList = stream.drop (p.frames * frame)
  engine_eq : p.engine = lease.serveAll e (leadingFrames frame p.frames stream)
  fed : ring.Fed ((lease.services e (leadingFrames frame p.frames stream)).map (lease.made frame))
    p.output
  vad_eq : ((lease.services e (leadingFrames frame p.frames stream)).getLast?.map
    Service.answer).getD (.ok .zero) = .ok p.vad

theorem events_of_load {lease : Lease} {frame : Nat} {p q : Progress σ}
    (h : p.load lease frame = .ok q) : q.events = p.events := by
  unfold load at h
  dsimp only at h
  split at h
  · cases h
  · split at h
    · cases h
    · rw [← Except.ok.inj h]

/-- A frame that is loaded is fed to the engine. -/
theorem engine_of_load {lease : Lease} {frame : Nat} {p q : Progress σ} (hpos : 0 < frame)
    (hwaits : frame ≤ p.input.available) (hload : p.load lease frame = .ok q) :
    q.engine = lease.feed p.engine (p.input.toList.take frame) := by
  obtain ⟨start, hstart, rfl⟩ := exists_of_load hpos hwaits hload
  obtain ⟨rfl, -⟩ := Arena.locate_eq_ok hstart
  rfl

/-- Events are only added. -/
theorem subset_events_advance (p : Progress σ) (lease : Lease) (frame : Nat)
    (block : List Sample) :
    (p.absorb block).2.events ⊆ (p.advance lease frame block).2.events := by
  refine advance_induction (P := fun q => (p.absorb block).2.events ⊆ q.events) ?_
    (List.Subset.refl _)
  intro q hq _
  unfold pass
  split
  · exact hq
  · rename_i loaded hload
    rw [← events_of_load hload] at hq
    split
    · exact hq
    · dsimp only
      split
      · exact hq
      · dsimp only [emit]
        split
        · exact hq
        · exact List.Subset.trans hq (List.subset_append_left ..)

namespace Reframes

variable {lease : Lease} {frame : Nat} {e : σ} {ring : SampleRing} {stream : List Sample}
  {p q : Progress σ}

theorem available_eq (h : p.Reframes lease frame e ring stream) :
    p.input.available = stream.length - p.frames * frame := by
  rw [← SampleRing.length_toList, h.input_eq, List.length_drop]

/-- More of the stream comes in, and there is room for it. -/
theorem absorb (h : p.Reframes lease frame e ring stream) {block : List Sample}
    (habsorb : p.absorb block = (none, q))
    (hquiet : ∀ event ∈ q.events, event.losesInput = false) :
    q.Reframes lease frame e ring (stream ++ block) := by
  obtain ⟨n, input, hpush, rfl⟩ := exists_of_absorb habsorb
  have hle : p.input.available ≤ p.input.capacity := p.input.available_le
  have hroom : p.input.available + block.length ≤ p.input.capacity := by
    by_contra hover
    have hne : block ≠ [] := by
      rintro rfl
      exact hover hle
    have htally := SampleRing.tally_push hpush
    rw [if_neg hne, if_pos (Nat.not_le.mp hover)] at htally
    have hevent : ∃ n, overflowEvents .input p.input.tally input.tally = [.overflow .input n] := by
      simp [overflowEvents, htally]
    obtain ⟨n, hevent⟩ := hevent
    have hloss := hquiet (.overflow .input n) (by simp [hevent])
    cases hloss
  have hlist := SampleRing.toList_push hpush
  rw [Nat.sub_eq_zero_of_le hroom, List.drop_zero, h.input_eq] at hlist
  have hframes := leadingFrames_append h.frames_le block
  refine ⟨?_, ?_, ?_, ?_, ?_⟩
  · exact h.frames_le.trans (by simp)
  · rw [hlist, List.drop_append_of_le_length h.frames_le]
  · rw [hframes]
    exact h.engine_eq
  · rw [hframes]
    exact h.fed
  · rw [hframes]
    exact h.vad_eq

/-- The next frame of the stream goes through. -/
theorem pass (h : p.Reframes lease frame e ring stream) (hpos : 0 < frame)
    (hcap : frame ≤ ring.capacity) (hpass : p.Passes lease frame q) :
    q.Reframes lease frame e ring stream := by
  have hwaits := hpass.1
  have havail := h.available_eq
  obtain ⟨loaded, e', made, output, hload, hserve, hread, hpush, heq⟩ :=
    hpass.exists_made hpos (hcap.trans_eq h.fed.capacity_eq.symm)
  obtain ⟨start, hstart, rfl⟩ := exists_of_load hpos hwaits hload
  obtain ⟨rfl, -⟩ := Arena.locate_eq_ok hstart
  -- The frame is served, and what is read afterwards is what has been made of it.
  have hservice : lease.service (lease.serveAll e (leadingFrames frame p.frames stream))
      ((stream.drop (p.frames * frame)).take frame) =
        ⟨lease.handle, lease.outputSpan.offset, lease.inputSpan.offset,
          lease.feed p.engine (p.input.toList.take frame), .ok q.vad, e'⟩ := by
    rw [← h.engine_eq, ← h.input_eq]
    have hserve' : Engine.processFrame (lease.feed p.engine (p.input.toList.take frame))
        lease.handle lease.outputSpan.offset lease.inputSpan.offset = (.ok q.vad, e') := hserve
    simp only [Lease.service, hserve']
  have hmade : (Engine.arena e').words.read lease.outputSpan.start frame = made :=
    (Arena.read_eq_ok hread).1.symm
  have hframes : q.frames = p.frames + 1 := by rw [heq]
  refine ⟨?_, ?_, ?_, ?_, ?_⟩
  · rw [hframes, Nat.succ_mul]
    omega
  · rw [hframes, heq]
    simp only [SampleRing.toList_skip, h.input_eq, List.drop_drop, Nat.succ_mul]
  · rw [hframes, leadingFrames_succ, Lease.serveAll_append, hservice, heq]
  · rw [hframes, leadingFrames_succ, Lease.services_append, List.map_append, hservice, heq]
    simp only [List.map_singleton, Lease.made, hmade]
    exact h.fed.push hpush
  · rw [hframes, leadingFrames_succ, Lease.services_append, hservice]
    simp

theorem reaches (h : p.Reframes lease frame e ring stream) (hpos : 0 < frame)
    (hcap : frame ≤ ring.capacity) (hreach : Relation.ReflTransGen (Passes lease frame) p q) :
    q.Reframes lease frame e ring stream := by
  induction hreach with
  | refl => exact h
  | tail _ hpass ih => exact ih.pass hpos hcap hpass

section reliable

variable {capacity : Nat} {frame : UInt64} {P : σ → Prop}
  (hrel : lease.Reliable capacity frame P) (hlies : lease.Lies capacity frame.toNat) (he : P e)
  (hpos : 0 < frame.toNat)

include hrel he in
theorem holds (h : p.Reframes lease frame.toNat e ring stream) : P p.engine := by
  rw [h.engine_eq]
  exact hrel.serveAll he fun block hblock => length_of_mem_leadingFrames h.frames_le hblock

include hrel hlies he hpos

/-- No frame is lost. -/
theorem not_loses (h : p.Reframes lease frame.toNat e ring stream)
    (hwaits : frame.toNat ≤ p.input.available) {fault : EngineError} :
    ¬p.Loses lease frame.toNat fault q := by
  intro hloses
  have hp := h.holds hrel he
  have hlen : (p.input.toList.take frame.toNat).length = frame.toNat := by simpa using hwaits
  obtain ⟨⟨answer, hanswer⟩, hleft⟩ := hrel.exists_service hp hlen
  simp only [Lease.service] at hanswer hleft
  cases hloses with
  | input hlocate =>
    rw [hlies.input _ (hrel.capacity_eq _ hp)] at hlocate
    cases hlocate
  | engine hload hserve =>
    rw [← engine_of_load hpos hwaits hload, hserve] at hanswer
    cases hanswer
  | output hload hserve hlocate =>
    rw [← engine_of_load hpos hwaits hload, hserve] at hleft
    rw [hlies.output _ (hrel.capacity_eq _ hleft)] at hlocate
    cases hlocate

/-- A block comes in, and all whole frames go through. -/
theorem advance (h : p.Reframes lease frame.toNat e ring stream)
    (hcap : frame.toNat ≤ ring.capacity) {block : List Sample}
    (hfits : block.length ≤ p.input.capacity)
    (hquiet : ∀ event ∈ (p.advance lease frame.toNat block).2.events,
      event.losesInput = false) :
    ∃ r, p.advance lease frame.toNat block = (none, r) ∧
      r.Reframes lease frame.toNat e ring (stream ++ block) ∧
      r.frames = (stream ++ block).length / frame.toNat := by
  have hgrows := p.subset_events_advance lease frame.toNat block
  rcases habsorb : p.absorb block with ⟨fault | fault, q⟩
  · rw [habsorb] at hgrows
    have hq := h.absorb habsorb fun event hevent => hquiet event (hgrows hevent)
    rcases hadvance : p.advance lease frame.toNat block with ⟨fault | fault, r⟩
    · simp only [Progress.advance, habsorb, passLimit, if_neg hpos.ne'] at hadvance
      obtain ⟨hreach, hmod⟩ := reaches_of_drain hpos _ q le_rfl hadvance
      have hr := hq.reaches hpos hcap hreach
      refine ⟨r, rfl, hr, ?_⟩
      have havail := hr.available_eq
      have hlt := Nat.mod_lt q.input.available hpos
      have hle := hr.frames_le
      refine (Nat.div_eq_of_lt_le hle ?_).symm
      rw [Nat.succ_mul]
      omega
    · cases (advance_eq_some_iff hpos).mp hadvance with
      | tooLong hlong => omega
      | frame habsorb' hfalls =>
        obtain rfl := (Prod.mk.inj (habsorb.symm.trans habsorb')).2
        obtain ⟨q', hreach, hwaits, hloses⟩ := hfalls
        exact absurd hloses ((hq.reaches hpos hcap hreach).not_loses hrel hlies he hpos hwaits)
  · have hlong := (absorb_eq_some_iff.mp habsorb).1
    omega

end reliable

end Reframes

end Progress

/-- A scripted engine whose script has neither a failure nor another frame size. -/
theorem ScriptedEngine.reliable (script : Script) (hfail : script.failAt = none)
    (hresize : script.resize = none) (before : IdentityEngine) (lease : Lease) :
    lease.Reliable before.arena.capacity before.frameSize fun e : ScriptedEngine =>
      e.script = script ∧ lease.Held before e.inner where
  frameSize_eq e he := by
    have hsame : Engine.frameSize e = e.inner.frameSize := by
      change e.frameSize = _
      rw [ScriptedEngine.frameSize, he.1, hresize]
    exact hsame.trans he.2.frameSize_eq
  capacity_eq e he := he.2.spans.capacity_eq
  feed e block he hblock := ⟨he.1, he.2.write (Or.inl rfl) hblock⟩
  serve e he := by
    have hscript := e.script_processFrame lease.handle lease.outputSpan.offset
      lease.inputSpan.offset
    have hheld := he.2.changesWithin (Or.inr rfl) (e.changesWithin_processFrame lease.handle
      lease.outputSpan.offset lease.inputSpan.offset)
    have hanswer : ∃ vad, (e.processFrame lease.handle lease.outputSpan.offset
        lease.inputSpan.offset).1 = .ok vad := by
      simp [ScriptedEngine.processFrame, he.1, hfail, he.2.processFrame_eq]
    obtain ⟨vad, hvad⟩ := hanswer
    exact ⟨vad, _, Prod.ext hvad rfl, hscript.trans he.1, hheld⟩

namespace Framer

variable {σ : Type}

theorem holdings_deliver (f : Framer σ) (lease : Lease) (p : Progress σ) (buffer : List Sample) :
    (f.deliver lease p buffer).framer.holdings = some ⟨p.input,
      if 0 < f.warmupLeft then p.output else (p.output.pull buffer).ring, lease⟩ := by
  unfold deliver
  dsimp only
  split_ifs <;> rfl

theorem subset_events_deliver (f : Framer σ) (lease : Lease) (p : Progress σ)
    (buffer : List Sample) : p.events ⊆ (f.deliver lease p buffer).events := by
  unfold deliver
  dsimp only
  split_ifs <;> simp

variable [Engine σ]

theorem subset_events_quantum {f : Framer σ} {h : Holdings} (hphase : f.phase = .running)
    (hsome : f.holdings = some h) (input buffer : List Sample) :
    ((f.progress h).advance h.lease f.engineFrame.toNat input).2.events ⊆
      (f.quantum input buffer).events := by
  rcases hadvance : (f.progress h).advance h.lease f.engineFrame.toNat input with ⟨fault | e, p⟩
  · rw [quantum_eq_deliver hphase hsome hadvance]
    exact subset_events_deliver _ h.lease p buffer
  · rw [quantum_eq_fail hphase hsome hadvance]
    simp [fail]

/-- Filling a buffer takes from the output ring, and leaves all else. -/
theorem reframes_deliver (f : Framer σ) {lease held : Lease} {frame : Nat} {e : σ}
    {ring : SampleRing} {stream : List Sample} {p : Progress σ}
    (hp : p.Reframes lease frame e ring stream) (buffer : List Sample) {h : Holdings}
    (hsome : (f.deliver held p buffer).framer.holdings = some h) :
    ((f.deliver held p buffer).framer.progress h).Reframes lease frame e ring stream := by
  have hholdings := holdings_deliver f held p buffer
  obtain ⟨output, hframer, -⟩ := hands_deliver f held p buffer
  rw [hsome, Option.some.injEq] at hholdings
  rw [hframer, hholdings]
  refine ⟨hp.frames_le, hp.input_eq, hp.engine_eq, ?_, hp.vad_eq⟩
  dsimp only [Framer.progress]
  split_ifs
  · exact hp.fed
  · exact hp.fed.pull buffer

/-- What a call brings in, if the framer runs. -/
def receives (f : Framer σ) : FramerCall → List Sample
  | .quantum input _ => if f.phase = .running then input else []
  | _ => []

/-- All that comes in while the framer runs. -/
def received (f : Framer σ) : List FramerCall → List Sample
  | [] => []
  | c :: rest => f.receives c ++ (f.after c).received rest

theorem received_map {τ : Type} [Engine τ] {φ : τ → σ} (hφ : Engine.IsHom φ) (f : Framer τ)
    (calls : List FramerCall) : (f.map φ).received calls = f.received calls := by
  induction calls generalizing f with
  | nil => rfl
  | cons c rest ih =>
    have hfirst : (f.map φ).receives c = f.receives c := by cases c <;> rfl
    rw [received, received, hfirst, after_map hφ, ih]

/-- A session that does not stop the framer and in which no input is lost for want of room. -/
structure KeepsInput (f : Framer σ) (calls : List FramerCall) : Prop where
  not_stopped : ∀ c ∈ calls, c.isStop = false
  not_lost : ∀ event ∈ f.eventsDuring calls, event.losesInput = false

/-- What a framer is like after a stream has come in since its start. -/
structure Reframed (lease : Lease) (frame : Nat) (e : σ) (ring : SampleRing)
    (stream : List Sample) (f : Framer σ) (h : Holdings) : Prop where
  phase_eq : f.phase = .running ∨ f.phase = .paused
  holdings_eq : f.holdings = some h
  lease_eq : h.lease = lease
  frames_eq : f.frames = stream.length / frame
  progress : (f.progress h).Reframes lease frame e ring stream

/-- What is left over waits. -/
theorem Reframed.input_eq {lease : Lease} {frame : Nat} {e : σ} {ring : SampleRing}
    {stream : List Sample} {f : Framer σ} {h : Holdings}
    (hf : f.Reframed lease frame e ring stream h) :
    h.input.toList = stream.rtake (stream.length % frame) := by
  have hinput : h.input.toList = stream.drop (f.frames * frame) := hf.progress.input_eq
  have hdiv := Nat.div_add_mod' stream.length frame
  rw [hinput, hf.frames_eq, List.rtake]
  congr 1
  omega

namespace Reframed

variable {lease : Lease} {capacity : Nat} {frame : UInt64} {P : σ → Prop} {e : σ}
  {ring : SampleRing} {stream : List Sample} {f : Framer σ} {h : Holdings}
  (hrel : lease.Reliable capacity frame P) (hlies : lease.Lies capacity frame.toNat) (he : P e)
  (hpos : 0 < frame.toNat) (hcap : frame.toNat ≤ ring.capacity)

include hrel hlies he hpos hcap

theorem quantum (hf : f.Reframed lease frame.toNat e ring stream h) (hphase : f.phase = .running)
    {input : List Sample} (buffer : List Sample)
    (hquiet : ∀ event ∈ (f.quantum input buffer).events, event.losesInput = false) :
    ∃ h', (f.quantum input buffer).framer.Reframed lease frame.toNat e ring (stream ++ input)
      h' := by
  have hframe : f.engineFrame = frame := hrel.frameSize_eq _ (hf.progress.holds hrel he)
  have hfits : input.length ≤ h.input.capacity := by
    by_contra hlong
    obtain ⟨-, hevents⟩ := quantum_too_long hphase hf.holdings_eq (Nat.not_le.mp hlong) buffer
    have hloss := hquiet (.misconfigured (.pushExceedsCapacity input.length h.input.capacity))
      (by simp [hevents])
    cases hloss
  have hgrows := subset_events_quantum hphase hf.holdings_eq input buffer
  rw [hframe, hf.lease_eq] at hgrows
  obtain ⟨p, hadvance, hp, hframes⟩ := hf.progress.advance hrel hlies he hpos hcap hfits
    fun event hevent => hquiet event (hgrows hevent)
  rw [← hframe, ← hf.lease_eq] at hadvance
  have hholdings := holdings_deliver { f with callbacks := f.callbacks + 1 } h.lease p buffer
  have hdelivers := reframes_deliver { f with callbacks := f.callbacks + 1 } hp buffer hholdings
  obtain ⟨output, hframer, -⟩ :=
    hands_deliver { f with callbacks := f.callbacks + 1 } h.lease p buffer
  rw [quantum_eq_deliver hphase hf.holdings_eq hadvance]
  refine ⟨_, ?_, hholdings, hf.lease_eq, ?_, hdelivers⟩
  · rw [hframer]
    exact Or.inl hphase
  · rw [hframer]
    exact hframes

theorem after (hf : f.Reframed lease frame.toNat e ring stream h) {c : FramerCall}
    (hc : c.isStop = false) (hquiet : ∀ event ∈ f.eventsOf c, event.losesInput = false) :
    ∃ h', (f.after c).Reframed lease frame.toNat e ring (stream ++ f.receives c) h' := by
  have hsame : ∀ g : Framer σ, (g.phase = .running ∨ g.phase = .paused) →
      g.holdings = f.holdings → g.frames = f.frames → g.progress h = f.progress h →
        g.Reframed lease frame.toNat e ring (stream ++ []) h := by
    intro g hphase hholdings hframes hprogress
    rw [List.append_nil]
    exact ⟨hphase, hholdings.trans hf.holdings_eq, hf.lease_eq, hframes.trans hf.frames_eq,
      hprogress ▸ hf.progress⟩
  cases c with
  | start =>
    have hcreated : f.phase ≠ .created := by
      rcases hf.phase_eq with hphase | hphase <;> simp [hphase]
    rw [Framer.after, start_of_ne hcreated]
    exact ⟨h, hsame f hf.phase_eq rfl rfl rfl⟩
  | command c =>
    rcases f.apply_eq c with happly | ⟨q, hafter, happly⟩
    · rw [Framer.after, happly]
      exact ⟨h, hsame f hf.phase_eq rfl rfl rfl⟩
    · have hstop : c ≠ .stop := by
        rintro rfl
        cases hc
      have hstopped := (Phase.awake_after hstop hafter).1
      rcases Phase.after_cases hafter with ⟨hq, -⟩ | ⟨-, hq⟩
      · exact absurd hq hstopped
      · rw [Framer.after, happly, if_neg hstopped]
        exact ⟨h, hsame _ hq rfl rfl rfl⟩
  | stop => cases hc
  | quantum input buffer =>
    rcases hf.phase_eq with hphase | hphase
    · have hreceives : f.receives (.quantum input buffer) = input := if_pos hphase
      rw [hreceives]
      exact hf.quantum hrel hlies he hpos hcap hphase buffer hquiet
    · have hidle : f.phase ≠ .running := by simp [hphase]
      have hreceives : f.receives (.quantum input buffer) = [] := if_neg hidle
      rw [hreceives, Framer.after, (quantum_idle hidle input buffer).1]
      exact ⟨h, hsame _ hf.phase_eq rfl rfl rfl⟩

theorem replay (hf : f.Reframed lease frame.toNat e ring stream h) {calls : List FramerCall}
    (hcalls : f.KeepsInput calls) :
    ∃ h', (f.replay calls).Reframed lease frame.toNat e ring (stream ++ f.received calls) h' := by
  induction calls generalizing f stream h with
  | nil =>
    rw [received, List.append_nil]
    exact ⟨h, hf⟩
  | cons c rest ih =>
    obtain ⟨hstops, hquiet⟩ := hcalls
    rw [eventsDuring, List.forall_mem_append] at hquiet
    rw [List.forall_mem_cons] at hstops
    obtain ⟨h', hf'⟩ := hf.after hrel hlies he hpos hcap hstops.1 hquiet.1
    obtain ⟨h'', hlast⟩ := ih hf' ⟨hstops.2, hquiet.2⟩
    rw [List.append_assoc] at hlast
    exact ⟨h'', hlast⟩

end Reframed

/-- Nothing has come in since the start. -/
structure Fresh (f : Framer σ) (h : Holdings) : Prop where
  phase_eq : f.phase = .running
  holdings_eq : f.holdings = some h
  input_eq : h.input.toList = []
  frames_eq : f.frames = 0
  vad_eq : f.vad = .zero

theorem fresh_started {sizing : Sizing} {s : σ} (hstart : (started sizing s).result = .ok ())
    {lease : Lease} {e : σ} (htake : Lease.take s (Engine.frameSize s).toNat = (.ok lease, e)) :
    (started sizing s).framer.engine = e ∧ ∃ hpos, (started sizing s).framer.Fresh
      ⟨.ofCapacity sizing.ringCapacity.toNat hpos, .ofCapacity sizing.ringCapacity.toNat hpos,
        lease⟩ := by
  obtain ⟨-, e', lease', hpos, htake', hframer⟩ := exists_of_started_ok hstart
  rw [htake] at htake'
  obtain ⟨hlease, rfl⟩ := Prod.mk.inj htake'
  obtain rfl := Except.ok.inj hlease
  rw [hframer]
  exact ⟨rfl, hpos, rfl, rfl, SampleRing.toList_ofCapacity .., rfl, rfl⟩

namespace Fresh

variable {f : Framer σ} {h : Holdings}

omit [Engine σ] in
theorem monitored (hf : f.Fresh h) : f.monitored.Fresh h :=
  ⟨hf.phase_eq, hf.holdings_eq, hf.input_eq, hf.frames_eq, hf.vad_eq⟩

theorem reframed (hf : f.Fresh h) (frame : Nat) :
    f.Reframed h.lease frame f.engine h.output [] h := by
  obtain ⟨hphase, hsome, hinput, hframes, hvad⟩ := hf
  refine ⟨Or.inl hphase, hsome, rfl, by simp [hframes], ?_⟩
  refine ⟨by simp [progress, hframes], by simp [progress, hinput], ?_, ?_, ?_⟩
  · simp [progress, hframes, leadingFrames, Lease.serveAll]
  · simpa [progress, hframes, leadingFrames, Lease.services] using SampleRing.Fed.refl
  · simp [progress, hframes, hvad, leadingFrames, Lease.services]

variable {capacity : Nat} {frame : UInt64} {P : σ → Prop}
  (hf : f.Fresh h) (hrel : h.lease.Reliable capacity frame P)
  (hlies : h.lease.Lies capacity frame.toNat) (he : P f.engine) (hpos : 0 < frame.toNat)
  (hcap : frame.toNat ≤ h.output.capacity)

include hf hrel hlies he hpos hcap

theorem reframed_replay {calls : List FramerCall} (hcalls : f.KeepsInput calls) :
    ∃ h', (f.replay calls).Reframed h.lease frame.toNat f.engine h.output (f.received calls) h' :=
  (hf.reframed frame.toNat).replay hrel hlies he hpos hcap hcalls

/-- The engine is asked for what a list of frames asks for, and which frames these are depends on
the stream only. -/
theorem services_eq {calls : List FramerCall} (hcalls : f.KeepsInput calls) :
    f.services calls = h.lease.services f.engine (leadingFrames frame.toNat
      ((f.received calls).length / frame.toNat) (f.received calls)) := by
  have hreceived : f.monitored.received calls = f.received calls :=
    (received_map Monitored.isHom f.monitored calls).symm
  have hcalls' : f.monitored.KeepsInput calls :=
    ⟨hcalls.not_stopped, f.eventsDuring_monitored calls ▸ hcalls.not_lost⟩
  obtain ⟨h', hlast⟩ := hf.monitored.reframed_replay hrel.monitored hlies he hpos hcap hcalls'
  have hengine : (f.monitored.replay calls).engine = _ := hlast.progress.engine_eq
  have hframes : ((f.monitored.replay calls).progress h').frames = _ := hlast.frames_eq
  rw [services, hengine, hframes, hreceived, Lease.serveAll_monitored]
  simp [Framer.monitored]

/-- Each frame is asked for in its turn. It is there by then, and so is afterwards what has been made
of it. -/
theorem read_service {calls : List FramerCall} (hcalls : f.KeepsInput calls) {i : Nat}
    {service : Service σ} (hservice : (f.services calls)[i]? = some service) :
    service.handle = h.lease.handle ∧ service.output = h.lease.outputSpan.offset ∧
      service.input = h.lease.inputSpan.offset ∧
      (Engine.arena service.found).read service.input frame.toNat =
        .ok (((f.received calls).drop (i * frame.toNat)).take frame.toNat) ∧
      (Engine.arena service.left).read service.output frame.toNat =
        .ok (h.lease.made frame.toNat service) := by
  rw [hf.services_eq hrel hlies he hpos hcap hcalls] at hservice
  obtain ⟨hhandle, houtput, hinput, ⟨block, hblock, hfound⟩, hleft⟩ := hrel.exists_block hlies he
    (fun block hblock => length_of_mem_leadingFrames (Nat.div_mul_le_self ..) hblock) i service
    hservice
  have hi := (List.getElem?_eq_some_iff.mp hblock).1
  rw [length_leadingFrames] at hi
  rw [getElem?_leadingFrames hi] at hblock
  obtain rfl := Option.some.inj hblock
  exact ⟨hhandle, houtput, hinput, hfound, hleft⟩

/-- What has been made of the frames has gone into the output ring, and the last answer is kept. -/
theorem exists_reframed {calls : List FramerCall} (hcalls : f.KeepsInput calls) :
    ∃ h', (f.replay calls).Reframed h.lease frame.toNat f.engine h.output (f.received calls) h' ∧
      h.output.Fed ((f.services calls).map (h.lease.made frame.toNat)) h'.output ∧
      ((f.services calls).getLast?.map Service.answer).getD (.ok .zero) =
        .ok (f.replay calls).vad := by
  obtain ⟨h', hlast⟩ := hf.reframed_replay hrel hlies he hpos hcap hcalls
  have hcount : ((f.replay calls).progress h').frames = _ := hlast.frames_eq
  have hfed := hlast.progress.fed
  have hvad := hlast.progress.vad_eq
  rw [hcount, ← hf.services_eq hrel hlies he hpos hcap hcalls] at hfed hvad
  exact ⟨h', hlast, hfed, hvad⟩

end Fresh

/-- The engine gets the stream in frames, whatever blocks it comes in. Take any session since a
start, with pauses or not, that does not stop the framer and in which no input is lost for want of
room, and an engine that serves every frame. The engine is asked for as many frames as the stream
has, each time with the handle and the offsets of the lease, and it finds them in its input span in
order. What is in its output span afterwards is what the output ring gets, in the same order. The
framer goes on running or pausing; its input ring holds what is left over, it has counted the
frames, and it keeps the last answer. All that is asked of the engine, and all that it is like then,
is the same for two sessions in which the same stream comes in.

The spans of a lease lie in the arena unless byte offsets wrap in it. -/
theorem reframes_exactly {n : Nat} (history : List ArenaCall) {s : σ}
    (harena : Engine.arena s = (Arena.ofCapacity n).replay history) {sizing : Sizing}
    (hstart : (started sizing s).result = .ok ()) {lease : Lease} {e : σ}
    (htake : Lease.take s (Engine.frameSize s).toNat = (.ok lease, e))
    (hspans : n ≤ 2 ^ 30 ∨ lease.Lies n sizing.frame.toNat) {P : σ → Prop}
    (hrel : lease.Reliable n sizing.frame P) (he : P e) :
    let f := (started sizing s).framer
    let frame := sizing.frame.toNat
    (∀ calls, f.KeepsInput calls →
      let g := f.replay calls
      let stream := f.received calls
      let services := f.services calls
      services.length = stream.length / frame ∧
      (∀ i service, services[i]? = some service →
        service.handle = lease.handle ∧ service.output = lease.outputSpan.offset ∧
        service.input = lease.inputSpan.offset ∧
        (Engine.arena service.found).read service.input frame =
          .ok ((stream.drop (i * frame)).take frame)) ∧
      (g.phase = .running ∨ g.phase = .paused) ∧ g.frames = stream.length / frame ∧
      (services.getLast?.map Service.answer).getD (.ok .zero) = .ok g.vad ∧
      ∃ h made, g.holdings = some h ∧ h.lease = lease ∧
        h.input.toList = stream.rtake (stream.length % frame) ∧
        services.map (fun service =>
          (Engine.arena service.left).read service.output frame) = made.map .ok ∧
        (∃ hpos, (SampleRing.ofCapacity sizing.ringCapacity.toNat hpos).Fed made h.output) ∧
        h.output.toList <:+ made.flatten) ∧
    ∀ calls calls', f.KeepsInput calls → f.KeepsInput calls' →
      f.received calls = f.received calls' → f.services calls = f.services calls' := by
  intro f frame
  obtain ⟨rfl, hring, hfresh⟩ := fresh_started hstart htake
  have hfits := (exists_of_started_ok hstart).1
  have hpos : 0 < frame := hfits.frame_pos
  have hcap : frame ≤ (SampleRing.ofCapacity sizing.ringCapacity.toNat hring).capacity := by
    rw [SampleRing.capacity_ofCapacity]
    exact hfits.frame_le_ringCapacity
  have hlies : lease.Lies n frame := by
    rcases hspans with hn | hlies
    · have hlies := Lease.lies_of_take (harena ▸ Arena.tidy_replay hn history) htake
      rwa [harena, Arena.capacity_replay, Arena.capacity_ofCapacity, ← hfits.frame_eq] at hlies
    · exact hlies
  have hservices := fun calls (hcalls : f.KeepsInput calls) =>
    hfresh.services_eq hrel hlies he hpos hcap hcalls
  refine ⟨fun calls hcalls => ?_, fun calls calls' hcalls hcalls' hsame => ?_⟩
  · intro g stream services
    obtain ⟨h, hlast, hfed, hvad⟩ := hfresh.exists_reframed hrel hlies he hpos hcap hcalls
    refine ⟨?_, fun i service hservice => ?_, hlast.phase_eq, hlast.frames_eq, hvad, h,
      services.map (lease.made frame), hlast.holdings_eq, hlast.lease_eq, hlast.input_eq, ?_,
      ⟨hring, hfed⟩, ?_⟩
    · have hequal : services = lease.services f.engine
          (leadingFrames frame (stream.length / frame) stream) := hservices calls hcalls
      rw [hequal, Lease.length_services, length_leadingFrames]
    · obtain ⟨hhandle, houtput, hinput, hfound, -⟩ :=
        hfresh.read_service hrel hlies he hpos hcap hcalls hservice
      exact ⟨hhandle, houtput, hinput, hfound⟩
    · rw [List.map_map]
      refine List.map_congr_left fun service hservice => ?_
      obtain ⟨i, hi⟩ := List.getElem?_of_mem hservice
      exact (hfresh.read_service hrel hlies he hpos hcap hcalls hi).2.2.2.2
    · simpa using hfed.suffix
  · rw [hservices calls hcalls, hservices calls' hcalls', hsame]

/-- Turns frames upside down. -/
def negatingEngine : ScriptedEngine where
  inner := .ofMemory 2 8
  script := { negate := true, vads := [.one] }

/-- Five samples in three callbacks with a pause between them, or in one. -/
theorem reframes_exactly_of_two_cuttings :
    let f := (started ⟨48000, 3, 2, 2⟩ negatingEngine).framer
    let calls : List FramerCall := [.quantum [.one, .zero, .one] [.one], .command .pause,
      .quantum [.one] [.one], .command .resume, .quantum [] [.one], .quantum [.one, .zero] []]
    let calls' : List FramerCall := [.quantum [.one, .zero, .one, .one, .zero] []]
    (started ⟨48000, 3, 2, 2⟩ negatingEngine).result = .ok () ∧
      f.KeepsInput calls ∧ f.KeepsInput calls' ∧
      (f.services calls).length = 2 ∧ f.services calls = f.services calls' ∧
      (∀ service, (f.services calls)[1]? = some service →
        (Engine.arena service.found).read service.input 2 = .ok [.one, .one]) ∧
      ∃ h, (f.replay calls).holdings = some h ∧ h.input.toList = [.zero] := by
  intro f calls calls'
  have hstart : (started ⟨48000, 3, 2, 2⟩ negatingEngine).result = .ok () := by decide +kernel
  have hcalls : f.KeepsInput calls := ⟨by decide, by decide +kernel⟩
  have hcalls' : f.KeepsInput calls' := ⟨by decide, by decide +kernel⟩
  have hreceived : f.received calls = [.one, .zero, .one, .one, .zero] := by decide +kernel
  have hreceived' : f.received calls' = [.one, .zero, .one, .one, .zero] := by decide +kernel
  -- The lease that the start takes.
  have htake : Lease.take negatingEngine 2 =
      (.ok ⟨⟨0⟩, ⟨0, 2⟩, ⟨8, 2⟩⟩, (Lease.take negatingEngine 2).2) := rfl
  have htidy : negatingEngine.inner.arena.Tidy := Arena.tidy_ofCapacity (by decide)
  have hheld := (Lease.held_take (e := negatingEngine) rfl (.refl htidy)).2
  have hrel := ScriptedEngine.reliable negatingEngine.script rfl rfl negatingEngine.inner
    ⟨⟨0⟩, ⟨0, 2⟩, ⟨8, 2⟩⟩
  obtain ⟨hruns, hcuttings⟩ := reframes_exactly (n := 8) [] (s := negatingEngine) rfl hstart htake
    (Or.inl (by decide)) hrel ⟨rfl, hheld⟩
  obtain ⟨hlength, hfound, -, -, -, h, -, hholdings, -, hinput, -⟩ := hruns calls hcalls
  have hfound' := hfound 1
  have hreceived'' : (started ⟨48000, 3, 2, 2⟩ negatingEngine).framer.received calls = _ := hreceived
  rw [hreceived''] at hlength hfound' hinput
  refine ⟨hstart, hcalls, hcalls', hlength, ?_, ?_, h, hholdings, hinput⟩
  · exact hcuttings calls calls' hcalls hcalls' (hreceived.trans hreceived'.symm)
  · intro service hservice
    exact (hfound' service hservice).2.2.2

end Framer

end AudioFraming
