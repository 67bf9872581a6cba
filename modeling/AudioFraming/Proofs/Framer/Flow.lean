import AudioFraming.Proofs.Framer.Copying

/-!
# What waits in the rings

What waits is read from the output ring first. A pass of an identity engine only moves
the border between the two rings, apart from what the output ring evicts, so `Flows`
follows the samples over any number of passes. `Advances` adds the block that comes
before them: less than a frame is left in the input ring afterwards
(`advance_copies`).
-/

namespace AudioFraming

/-- Evictions come from overflows. -/
def RingTally.Sound (t : RingTally) : Prop := t.overflows = 0 → t.evicted = 0

theorem SampleRing.sound_push {r s : SampleRing} {block : List Sample} {n : Nat}
    (h : r.push block = .ok (n, s)) (hr : r.tally.Sound) : s.tally.Sound := by
  rw [tally_push h]
  split_ifs
  · exact hr
  · intro h0
    cases h0
  · exact hr

/-- An event of moving samples around. -/
def Event.Mild (e : Event) : Prop := e = .emptyPush .input ∨ ∃ side n, e = .overflow side n

theorem mild_of_mem_overflowEvents {side : Side} {before after : RingTally} {e : Event}
    (h : e ∈ overflowEvents side before after) : e.Mild := by
  unfold overflowEvents at h
  split_ifs at h
  · exact Or.inr ⟨side, _, List.mem_singleton.mp h⟩
  · cases h

namespace Progress

variable {σ : Type}

/-- The samples in the rings, the next one to be delivered first. -/
def waiting (p : Progress σ) : List Sample := p.output.toList ++ p.input.toList

/-- How many samples the rings have evicted. -/
def evicted (p : Progress σ) : Nat := p.input.tally.evicted + p.output.tally.evicted

@[simp] theorem length_waiting (p : Progress σ) :
    p.waiting.length = p.output.available + p.input.available := by
  simp [waiting]

/-- Samples have moved on towards the output, and only the output ring has evicted some. -/
structure Flows (p q : Progress σ) : Prop where
  input_capacity : q.input.capacity = p.input.capacity
  output_capacity : q.output.capacity = p.output.capacity
  input_tally : q.input.tally = p.input.tally
  sublist : q.waiting.Sublist p.waiting
  length_eq : q.waiting.length + q.evicted = p.waiting.length + p.evicted
  sound : p.output.tally.Sound → q.output.tally.Sound
  underflows_eq : q.output.tally.underflows = p.output.tally.underflows
  events : ∀ e ∈ q.events, e ∈ p.events ∨ e.Mild
  /-- If the output ring has room for all, nothing is evicted. -/
  output_tally : p.waiting.length ≤ p.output.capacity → q.output.tally = p.output.tally

namespace Flows

variable {p q r : Progress σ}

theorem refl (p : Progress σ) : p.Flows p :=
  ⟨rfl, rfl, rfl, .refl _, rfl, id, rfl, fun _ he => Or.inl he, fun _ => rfl⟩

theorem trans (h : p.Flows q) (h' : q.Flows r) : p.Flows r where
  input_capacity := h'.input_capacity.trans h.input_capacity
  output_capacity := h'.output_capacity.trans h.output_capacity
  input_tally := h'.input_tally.trans h.input_tally
  sublist := h'.sublist.trans h.sublist
  length_eq := h'.length_eq.trans h.length_eq
  sound := h'.sound ∘ h.sound
  underflows_eq := h'.underflows_eq.trans h.underflows_eq
  events e he := by
    rcases h'.events e he with he | he
    · exact h.events e he
    · exact Or.inr he
  output_tally hroom := by
    have hle := h.sublist.length_le.trans hroom
    rw [← h.output_capacity] at hle
    exact (h'.output_tally hle).trans (h.output_tally hroom)

end Flows

variable {before : IdentityEngine} {lease : Lease} {p q : Progress IdentityEngine} {frame : Nat}

theorem Copies.flows (h : p.Copies frame q) (hpos : 0 < frame) (ha : frame ≤ p.input.available) :
    p.Flows q := by
  have hlen : (p.input.toList.take frame).length = frame := by
    rw [List.length_take, SampleRing.length_toList]
    omega
  have hne : p.input.toList.take frame ≠ [] := List.ne_nil_of_length_pos (hpos.trans_eq hlen.symm)
  have havail := SampleRing.available_push h.output_push
  have hev := SampleRing.evicted_push h.output_push
  have htally := SampleRing.tally_push h.output_push
  rw [hlen] at havail hev htally
  rw [if_neg hne] at htally
  have ho : p.output.available ≤ p.output.capacity := p.output.available_le
  refine ⟨h.input_capacity, SampleRing.capacity_push h.output_push, h.input_tally, ?_, ?_,
    SampleRing.sound_push h.output_push, ?_, ?_, ?_⟩
  · have hsplit : p.waiting =
        (p.output.toList ++ p.input.toList.take frame) ++ p.input.toList.drop frame := by
      rw [waiting, List.append_assoc, List.take_append_drop]
    rw [hsplit, waiting, h.input_toList, SampleRing.toList_push h.output_push]
    exact (List.drop_sublist ..).append_right _
  · rw [length_waiting, length_waiting, evicted, evicted, h.available_eq, h.input_tally]
    omega
  · rw [htally]
    split_ifs <;> rfl
  · intro e he
    rw [h.events_eq] at he
    rcases List.mem_append.mp he with he | he
    · exact Or.inl he
    · exact Or.inr (mild_of_mem_overflowEvents he)
  · intro hroom
    rw [length_waiting] at hroom
    rw [htally, if_neg (by omega)]

/-- All whole frames go through, and less than one is left. -/
theorem drain_copies (hpos : 0 < before.frameSize.toNat) :
    ∀ (passes : Nat) (p : Progress IdentityEngine), lease.Held before p.engine →
      before.frameSize.toNat ≤ p.output.capacity → p.input.available ≤ passes →
        ∃ q, p.drain lease before.frameSize.toNat passes = (none, q) ∧
          lease.Held before q.engine ∧ p.Flows q ∧
          q.input.available = p.input.available % before.frameSize.toNat ∧
          q.frames = p.frames + p.input.available / before.frameSize.toNat := by
  intro passes
  induction passes with
  | zero =>
    intro p h hc hpasses
    have h0 := Nat.le_zero.mp hpasses
    refine ⟨p, rfl, h, .refl p, ?_, ?_⟩
    · rw [h0, Nat.zero_mod]
    · rw [h0, Nat.zero_div, Nat.add_zero]
  | succ passes ih =>
    intro p h hc hpasses
    unfold drain
    split_ifs with ha
    · obtain ⟨q, hpass, hheld, hcopies⟩ := pass_copies h hpos ha hc
      have hflows := hcopies.flows hpos ha
      have hroom : before.frameSize.toNat ≤ q.output.capacity := by
        rw [hflows.output_capacity]
        exact hc
      have hleft : q.input.available ≤ passes := by
        rw [hcopies.available_eq]
        omega
      obtain ⟨r, hdrain, hheld', hflows', hmod, hdiv⟩ := ih q hheld hroom hleft
      rw [hcopies.available_eq] at hmod hdiv
      refine ⟨r, ?_, hheld', hflows.trans hflows', ?_, ?_⟩
      · rw [hpass]
        exact hdrain
      · rw [hmod, ← Nat.mod_eq_sub_mod ha]
      · rw [hdiv, hcopies.frames_eq, Nat.div_eq_sub_div hpos ha]
        omega
    · refine ⟨p, rfl, h, .refl p, ?_, ?_⟩
      · rw [Nat.mod_eq_of_lt (Nat.not_le.mp ha)]
      · rw [Nat.div_eq_of_lt (Nat.not_le.mp ha), Nat.add_zero]

/-- A block has been queued, and all whole frames have gone through. -/
structure Advances (frame : Nat) (block : List Sample) (p q : Progress σ) : Prop where
  input_capacity : q.input.capacity = p.input.capacity
  output_capacity : q.output.capacity = p.output.capacity
  available_eq : q.input.available =
    min p.input.capacity (p.input.available + block.length) % frame
  frames_eq : q.frames =
    p.frames + min p.input.capacity (p.input.available + block.length) / frame
  sublist : q.waiting.Sublist (p.waiting ++ block)
  length_eq : q.waiting.length + q.evicted = p.waiting.length + block.length + p.evicted
  sound : p.input.tally.Sound → p.output.tally.Sound →
    q.input.tally.Sound ∧ q.output.tally.Sound
  underflows_eq : q.output.tally.underflows = p.output.tally.underflows
  events : ∀ e ∈ q.events, e ∈ p.events ∨ e.Mild
  /-- If each ring has room for all, nothing is evicted. -/
  tally_eq : block ≠ [] → p.waiting.length + block.length ≤ p.input.capacity →
    p.waiting.length + block.length ≤ p.output.capacity →
      q.input.tally = p.input.tally ∧ q.output.tally = p.output.tally

/-- With room in both rings, all that waited still waits, and the block after it. -/
theorem Advances.keeps {p q : Progress σ} {block : List Sample}
    (h : p.Advances frame block q) (hne : block ≠ [])
    (hin : p.waiting.length + block.length ≤ p.input.capacity)
    (hout : p.waiting.length + block.length ≤ p.output.capacity) :
    q.input.tally = p.input.tally ∧ q.output.tally = p.output.tally ∧
      q.waiting = p.waiting ++ block := by
  obtain ⟨hinput, houtput⟩ := h.tally_eq hne hin hout
  have hlen := h.length_eq
  rw [evicted, evicted, hinput, houtput] at hlen
  refine ⟨hinput, houtput, h.sublist.eq_of_length ?_⟩
  rw [List.length_append]
  omega

/-- A block that is not longer than the ring is queued. -/
theorem exists_absorb (p : Progress σ) {block : List Sample}
    (h : block.length ≤ p.input.capacity) :
    ∃ q, p.absorb block = (none, q) ∧ q.engine = p.engine ∧ q.output = p.output ∧
      q.frames = p.frames ∧ p.input.push block = .ok (block.length, q.input) ∧
      ∀ e ∈ q.events, e ∈ p.events ∨ e.Mild := by
  obtain ⟨ring, hpush⟩ := p.input.exists_push h
  unfold absorb
  simp only [hpush]
  refine ⟨_, rfl, rfl, rfl, rfl, rfl, ?_⟩
  intro e he
  rcases List.mem_append.mp he with he | he
  · split_ifs at he
    · rcases List.mem_append.mp he with he | he
      · exact Or.inl he
      · exact Or.inr (Or.inl (List.mem_singleton.mp he))
    · exact Or.inl he
  · exact Or.inr (mild_of_mem_overflowEvents he)

theorem advance_copies {block : List Sample} (h : lease.Held before p.engine)
    (hpos : 0 < before.frameSize.toNat) (hc : before.frameSize.toNat ≤ p.output.capacity)
    (hblock : block.length ≤ p.input.capacity) :
    ∃ q, p.advance lease before.frameSize.toNat block = (none, q) ∧
      lease.Held before q.engine ∧ p.Advances before.frameSize.toNat block q := by
  obtain ⟨s, habsorb, hengine, houtput, hframes, hpush, hevents⟩ := p.exists_absorb hblock
  have hlimit : s.input.available ≤ passLimit before.frameSize.toNat s.input.available := by
    rw [passLimit, if_neg (Nat.ne_of_gt hpos)]
  obtain ⟨q, hdrain, hheld, hflows, hmod, hdiv⟩ :=
    drain_copies hpos _ s (hengine ▸ h) (houtput ▸ hc) hlimit
  have hcap := SampleRing.capacity_push hpush
  have havail := SampleRing.available_push hpush
  have htally := SampleRing.tally_push hpush
  have ha : p.input.available ≤ p.input.capacity := p.input.available_le
  have hwaiting : s.waiting.Sublist (p.waiting ++ block) := by
    rw [waiting, waiting, houtput, SampleRing.toList_push hpush, List.append_assoc]
    exact (List.drop_sublist ..).append_left _
  refine ⟨q, ?_, hheld, ?_⟩
  · unfold advance
    simp only [habsorb, hdrain]
  refine ⟨hflows.input_capacity.trans hcap, hflows.output_capacity.trans (houtput ▸ rfl),
    havail ▸ hmod, ?_, hflows.sublist.trans hwaiting, ?_, ?_, ?_, ?_, ?_⟩
  · rw [hdiv, hframes, havail]
  · have hev := SampleRing.evicted_push hpush
    rw [hflows.length_eq, length_waiting, length_waiting, evicted, evicted, houtput]
    omega
  · intro hin hout
    exact ⟨hflows.input_tally ▸ SampleRing.sound_push hpush hin,
      hflows.sound (houtput ▸ hout)⟩
  · rw [hflows.underflows_eq, houtput]
  · intro e he
    rcases hflows.events e he with he | he
    · exact hevents e he
    · exact Or.inr he
  · intro hne hin hout
    rw [length_waiting] at hin hout
    constructor
    · rw [hflows.input_tally, htally, if_neg hne, if_neg (by omega)]
    · rw [hflows.output_tally, houtput]
      rw [length_waiting, houtput]
      omega

end Progress

end AudioFraming
