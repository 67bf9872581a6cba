import AudioFraming.Proofs.Framer.Passes
import AudioFraming.Proofs.SampleRing.BoundedQueue

/-!
# Frames through an identity engine

Under a lease the two spans are whole and apart, so an identity engine never fails: a
frame leaves the input ring and is queued, bit for bit, in the output ring
(`pass_copies`).
-/

namespace AudioFraming

namespace Lease.Held

variable {before e : IdentityEngine} {lease : Lease} {s : Span} {block : List Sample}

theorem write (h : lease.Held before e) (hs : s = lease.inputSpan ∨ s = lease.outputSpan)
    (hlen : block.length = before.frameSize.toNat) :
    lease.Held before { e with
      arena := { e.arena with words := e.arena.words.write s.start block } } := by
  have hc := e.arena.changesWithin_write s.start before.frameSize.toNat block
  rw [Cells.cut_eq_take, List.take_of_length_le hlen.le] at hc
  exact h.withArena hs hc

/-- A frame written to one of the spans is there to be read. -/
theorem read_write (h : lease.Held before e) (hs : s = lease.inputSpan ∨ s = lease.outputSpan)
    (hlen : block.length = before.frameSize.toNat) :
    (e.arena.words.write s.start block).read s.start before.frameSize.toNat = block := by
  have hroom : s.start + block.length ≤ e.arena.words.size := by
    rw [hlen]
    rcases hs with rfl | rfl
    · exact (Arena.locate_eq_ok h.spans.locate_fst).2
    · exact (Arena.locate_eq_ok h.spans.locate_snd).2
  rw [← hlen]
  exact Cells.read_write _ _ _ hroom

end Lease.Held

/-- Under a lease a frame is copied from span to span. -/
theorem Lease.Held.processFrame_eq {before e : IdentityEngine} {lease : Lease}
    (h : lease.Held before e) :
    e.processFrame lease.handle lease.outputSpan.offset lease.inputSpan.offset =
      (.ok (IdentityEngine.voiceActivity
          (e.arena.words.read lease.inputSpan.start before.frameSize.toNat)),
        { e with
          arena := { e.arena with
            words := e.arena.words.write lease.outputSpan.start
              (e.arena.words.read lease.inputSpan.start before.frameSize.toNat) } }) := by
  have hapart := h.spans.apart
  have hmeet : ¬(lease.outputSpan.start < lease.inputSpan.start + before.frameSize.toNat ∧
      lease.inputSpan.start < lease.outputSpan.start + before.frameSize.toNat) := by
    simp only [Span.Apart, Span.stop, h.spans.length_fst, h.spans.length_snd] at hapart
    omega
  have hcut : (e.arena.words.read lease.inputSpan.start before.frameSize.toNat).length ≤
      before.frameSize.toNat := by
    rw [Cells.length_read]
    exact Nat.min_le_left _ _
  unfold IdentityEngine.processFrame
  simp only [h.get?_handle, h.frameSize_eq, Arena.pair, h.spans.locate_fst, h.spans.locate_snd,
    if_neg hmeet, Arena.RunPair.inputBlock, Arena.RunPair.store, Cells.cut_eq_take,
    List.take_of_length_le hcut]

namespace Progress

theorem load_eq {σ : Type} [Engine σ] {p : Progress σ} {lease : Lease} {frame start : Nat}
    (hloc : (Engine.arena p.engine).locate lease.inputSpan.offset frame = .ok start)
    (hpos : 0 < frame) (ha : frame ≤ p.input.available) :
    p.load lease frame = .ok { p with
      engine := Engine.withArena p.engine { Engine.arena p.engine with
        words := (Engine.arena p.engine).words.write start (p.input.toList.take frame) }
      input := p.input.skip frame ha } := by
  have hroom : start + frame ≤ (Engine.arena p.engine).words.size := (Arena.locate_eq_ok hloc).2
  have hlen : ((Engine.arena p.engine).words.read start frame).length = frame := by
    rw [Cells.length_read]
    omega
  have hcut : (p.input.toList.take frame).length ≤ frame := List.length_take_le _ _
  unfold load
  simp only [Arena.read_of_locate hloc, p.input.pull_eq hlen hpos ha, Arena.write, hloc,
    Cells.cut_eq_take, List.take_of_length_le hcut]

/-- A pass in which nothing goes wrong. -/
theorem pass_eq {σ : Type} [Engine σ] {p q : Progress σ} {lease : Lease} {frame n : Nat} {e : σ}
    {vad : Sample} {made : List Sample} {ring : SampleRing}
    (hload : p.load lease frame = .ok q)
    (hserve : Engine.processFrame q.engine lease.handle lease.outputSpan.offset
      lease.inputSpan.offset = (.ok vad, e))
    (hread : (Engine.arena e).read lease.outputSpan.offset frame = .ok made)
    (hpush : q.output.push made = .ok (n, ring)) :
    p.pass lease frame = (none,
      { engine := e
        input := q.input
        output := ring
        frames := q.frames + 1
        vad := vad
        events := q.events ++ overflowEvents .output q.output.tally ring.tally }) := by
  unfold pass
  simp only [hload, hserve, hread, emit, hpush]

/-- One frame has gone from ring to ring. -/
structure Copies (frame : Nat) (p q : Progress IdentityEngine) : Prop where
  available_eq : q.input.available = p.input.available - frame
  input_toList : q.input.toList = p.input.toList.drop frame
  input_tally : q.input.tally = p.input.tally
  input_capacity : q.input.capacity = p.input.capacity
  output_push : p.output.push (p.input.toList.take frame) = .ok (frame, q.output)
  frames_eq : q.frames = p.frames + 1
  vad_eq : q.vad = IdentityEngine.voiceActivity (p.input.toList.take frame)
  events_eq : q.events = p.events ++ overflowEvents .output p.output.tally q.output.tally

variable {before : IdentityEngine} {lease : Lease} {p q : Progress IdentityEngine}

theorem pass_copies (h : lease.Held before p.engine) (hpos : 0 < before.frameSize.toNat)
    (ha : before.frameSize.toNat ≤ p.input.available)
    (hc : before.frameSize.toNat ≤ p.output.capacity) :
    ∃ q, p.pass lease before.frameSize.toNat = (none, q) ∧ lease.Held before q.engine ∧
      p.Copies before.frameSize.toNat q := by
  have hblock : (p.input.toList.take before.frameSize.toNat).length =
      before.frameSize.toNat := by
    rw [List.length_take, SampleRing.length_toList]
    omega
  -- The frame is written to the input span, and the engine copies it to the output span.
  have hload := load_eq h.spans.locate_fst hpos ha
  have hheld := h.write (Or.inl rfl) hblock
  have hserve := hheld.processFrame_eq
  have hheld' := hheld.write (Or.inr rfl) hblock
  rw [h.read_write (Or.inl rfl) hblock] at hserve
  have hread := Arena.read_of_locate hheld'.spans.locate_snd
  rw [hheld.read_write (Or.inr rfl) hblock] at hread
  obtain ⟨ring, hpush⟩ := p.output.exists_push (hblock.trans_le hc)
  rw [hblock] at hpush
  refine ⟨_, pass_eq hload hserve hread hpush, hheld', ?_⟩
  exact {
    available_eq := rfl
    input_toList := p.input.toList_skip _ ha
    input_tally := rfl
    input_capacity := rfl
    output_push := hpush
    frames_eq := rfl
    vad_eq := rfl
    events_eq := rfl }

end Progress

end AudioFraming
