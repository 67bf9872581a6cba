import AudioFraming.Proofs.Framer.Backlog
import AudioFraming.Proofs.Framer.Reframing

/-!
# Engines that refuse a frame

An engine copies its frames and refuses the `n`-th of them (`Lease.CopiesUntil`). As long as it has
not been asked for that frame, what waits in the rings is the end of the stream, and the only frame
that can be lost is the one that it refuses (`Progress.Reframes.eq_of_loses`).
-/

namespace AudioFraming

namespace Lease

variable {σ : Type} [Engine σ]

/-- What is asked of an engine that copies `n` frames and refuses the next one. In the states `P k`
it has served `k` frames; it keeps the size of its frames and of its arena. -/
structure CopiesUntil (lease : Lease) (capacity : Nat) (frame : UInt64) (n : Nat)
    (P : Nat → σ → Prop) : Prop where
  frameSize_eq : ∀ k e, P k e → Engine.frameSize e = frame
  capacity_eq : ∀ k e, P k e → (Engine.arena e).capacity = capacity
  copies : ∀ k e block, k < n → P k e → block.length = frame.toNat →
    (lease.service e block).answer = .ok (IdentityEngine.voiceActivity block) ∧
      lease.made frame.toNat (lease.service e block) = block ∧
      P (k + 1) (lease.service e block).left
  refuses : ∀ e block, P n e → block.length = frame.toNat →
    ∃ fault, (lease.service e block).answer = .error fault

namespace CopiesUntil

variable {lease : Lease} {capacity : Nat} {frame : UInt64} {n : Nat} {P : Nat → σ → Prop}

/-- What has been made of the first frames, and what the engine is like then. -/
theorem serveAll (hcopies : lease.CopiesUntil capacity frame n P) {k : Nat} {e : σ} (he : P k e)
    {blocks : List (List Sample)} (hblocks : ∀ block ∈ blocks, block.length = frame.toNat)
    (hk : k + blocks.length ≤ n) :
    P (k + blocks.length) (lease.serveAll e blocks) ∧
      (lease.services e blocks).map (lease.made frame.toNat) = blocks ∧
      (lease.services e blocks).map Service.answer =
        blocks.map fun block => .ok (IdentityEngine.voiceActivity block) := by
  induction blocks generalizing k e with
  | nil => exact ⟨he, rfl, rfl⟩
  | cons block rest ih =>
    rw [List.length_cons] at hk ⊢
    obtain ⟨hanswer, hmade, hleft⟩ :=
      hcopies.copies k e block (by omega) he (hblocks block List.mem_cons_self)
    obtain ⟨hlast, hmades, hanswers⟩ := ih hleft
      (fun block hblock => hblocks block (List.mem_cons_of_mem _ hblock)) (by omega)
    refine ⟨?_, ?_, ?_⟩
    · rw [Nat.add_comm rest.length, ← Nat.add_assoc]
      exact hlast
    · simp only [services, List.map_cons, hmade, hmades]
    · simp only [services, List.map_cons, hanswer, hanswers]

end CopiesUntil

end Lease

namespace Progress

variable {σ : Type} [Engine σ] {lease : Lease} {frame : Nat} {p q : Progress σ}

/-- With room for all that waits, a frame moves from ring to ring and nothing is emitted. -/
theorem Passes.calm (hpos : 0 < frame) (hroom : p.backlog ≤ p.output.capacity)
    (h : p.Passes lease frame q) :
    q.events = p.events ∧ q.backlog = p.backlog ∧ q.output.capacity = p.output.capacity := by
  have hwaits := h.1
  unfold backlog at hroom
  obtain ⟨loaded, e, made, ring, hload, -, hread, hpush, heq⟩ := h.exists_made hpos (by omega)
  obtain ⟨start, -, rfl⟩ := exists_of_load hpos hwaits hload
  have hlen := Arena.length_of_read hread
  have hne : made ≠ [] := List.ne_nil_of_length_pos (hlen ▸ hpos)
  have havail := SampleRing.available_push hpush
  have htally := SampleRing.tally_push hpush
  rw [if_neg hne, if_neg (by omega)] at htally
  have hquiet : overflowEvents .output p.output.tally ring.tally = [] := by
    simp [overflowEvents, htally]
  rw [heq]
  refine ⟨by simp only [hquiet, List.append_nil], ?_, SampleRing.capacity_push hpush⟩
  simp only [backlog, SampleRing.skip]
  omega

theorem calm_of_reaches (hpos : 0 < frame) (hroom : p.backlog ≤ p.output.capacity)
    (h : Relation.ReflTransGen (Passes lease frame) p q) :
    q.events = p.events ∧ q.backlog = p.backlog ∧ q.output.capacity = p.output.capacity := by
  induction h with
  | refl => exact ⟨rfl, rfl, rfl⟩
  | tail _ hpass ih =>
    obtain ⟨hevents, hbacklog, hcapacity⟩ := ih
    obtain ⟨hevents', hbacklog', hcapacity'⟩ := hpass.calm hpos (by omega)
    exact ⟨hevents'.trans hevents, hbacklog'.trans hbacklog, hcapacity'.trans hcapacity⟩

namespace Reframes

variable {capacity n : Nat} {frame : UInt64} {P : Nat → σ → Prop} {e : σ} {ring : SampleRing}
  {stream : List Sample} (hcopies : lease.CopiesUntil capacity frame n P)
  (hlies : lease.Lies capacity frame.toNat) (he : P 0 e) (hpos : 0 < frame.toNat)

section copied

variable (h : p.Reframes lease frame.toNat e ring stream) (hle : p.frames ≤ n)
include hcopies he h hle

/-- As many frames have been served as have been counted. -/
theorem served : P p.frames p.engine := by
  have hserved := (hcopies.serveAll he
    (fun block hblock => length_of_mem_leadingFrames h.frames_le hblock) (by simpa using hle)).1
  rwa [length_leadingFrames, Nat.zero_add, ← h.engine_eq] at hserved

/-- The last answer is about the last frame. -/
theorem vad_eq_voiceActivity : p.vad =
    ((leadingFrames frame.toNat p.frames stream).getLast?.map
      IdentityEngine.voiceActivity).getD .zero := by
  have hanswers := (hcopies.serveAll he
    (fun block hblock => length_of_mem_leadingFrames h.frames_le hblock)
    (by simpa using hle)).2.2
  have hvad := h.vad_eq
  rw [← List.getLast?_map, hanswers, List.getLast?_map] at hvad
  cases hlast : (leadingFrames frame.toNat p.frames stream).getLast? with
  | none =>
    rw [hlast] at hvad
    exact (Except.ok.inj hvad).symm
  | some block =>
    rw [hlast] at hvad
    exact (Except.ok.inj hvad).symm

/-- What waits is the end of the stream. -/
theorem waiting_eq (hring : ring.toList = []) :
    p.waiting = stream.drop (stream.length - p.backlog) := by
  have hmade := (hcopies.serveAll he
    (fun block hblock => length_of_mem_leadingFrames h.frames_le hblock)
    (by simpa using hle)).2.1
  have hfed := h.fed.suffix
  rw [hmade, hring, List.nil_append, flatten_leadingFrames h.frames_le] at hfed
  have hsuffix : p.waiting <:+ stream := by
    rw [waiting, h.input_eq]
    conv_rhs => rw [← List.take_append_drop (p.frames * frame.toNat) stream]
    exact (List.suffix_append_inj_of_length_eq rfl).mpr ⟨hfed, rfl⟩
  have hlen : p.waiting.length = p.backlog := by rw [length_waiting, backlog, Nat.add_comm]
  rw [← hlen]
  exact List.suffix_iff_eq_drop.mp hsuffix

end copied

/-- What is left over waits. -/
theorem mod_eq {frame length : Nat} (h : p.Reframes lease frame e ring stream)
    (hlen : stream.length = length) (hshort : p.input.available < frame) :
    length % frame = p.input.available := by
  have havail := h.available_eq
  have hle := h.frames_le
  have hsplit : length = p.input.available + p.frames * frame := by omega
  rw [hsplit, Nat.add_mul_mod_self_right, Nat.mod_eq_of_lt hshort]

section served

variable (h : p.Reframes lease frame.toNat e ring stream) (hle : p.frames ≤ n)
include hcopies he hpos h hle

/-- A frame that goes through is one of those that are copied. -/
theorem lt_of_passes (hcap : frame.toNat ≤ ring.capacity)
    (hpass : p.Passes lease frame.toNat q) : p.frames < n := by
  refine lt_of_le_of_ne hle fun hlast => ?_
  have hp := h.served hcopies he hle
  rw [hlast] at hp
  have hlen : (p.input.toList.take frame.toNat).length = frame.toNat := by simpa using hpass.1
  obtain ⟨fault, hrefused⟩ := hcopies.refuses p.engine _ hp hlen
  obtain ⟨loaded, e', made, output, hload, hserve, -⟩ :=
    hpass.exists_made hpos (hcap.trans_eq h.fed.capacity_eq.symm)
  rw [engine_of_load hpos hpass.1 hload] at hserve
  simp only [Lease.service, hserve] at hrefused
  cases hrefused

theorem reaches_le (hcap : frame.toNat ≤ ring.capacity)
    (hreach : Relation.ReflTransGen (Passes lease frame.toNat) p q) :
    q.Reframes lease frame.toNat e ring stream ∧ q.frames ≤ n := by
  induction hreach with
  | refl => exact ⟨h, hle⟩
  | tail _ hpass ih =>
    obtain ⟨hmid, hmidle⟩ := ih
    have hlt := hmid.lt_of_passes hcopies he hpos hmidle hcap hpass
    have hcap' := hcap.trans_eq hmid.fed.capacity_eq.symm
    obtain ⟨loaded, e', made, output, -, -, -, -, heq⟩ := hpass.exists_made hpos hcap'
    have hframes := congrArg Progress.frames heq
    exact ⟨hmid.pass hpos hcap hpass, hframes ▸ hlt⟩

include hlies

/-- Only frame `n` is lost, and it leaves the count and the last answer alone. -/
theorem eq_of_loses (hwaits : frame.toNat ≤ p.input.available) {fault : EngineError}
    (hloses : p.Loses lease frame.toNat fault q) :
    p.frames = n ∧
      (lease.service p.engine (p.input.toList.take frame.toNat)).answer = .error fault ∧
      q.frames = p.frames ∧ q.vad = p.vad := by
  have hp := h.served hcopies he hle
  have hlen : (p.input.toList.take frame.toNat).length = frame.toNat := by simpa using hwaits
  cases hloses with
  | input hlocate =>
    rw [hlies.input _ (hcopies.capacity_eq _ _ hp)] at hlocate
    cases hlocate
  | engine hload hserve =>
    obtain ⟨start, -, hloaded⟩ := exists_of_load hpos hwaits hload
    rw [engine_of_load hpos hwaits hload] at hserve
    have hanswer : (lease.service p.engine (p.input.toList.take frame.toNat)).answer =
        .error fault := congrArg Prod.fst hserve
    refine ⟨hle.eq_of_not_lt fun hlt => ?_, hanswer, ?_, ?_⟩
    · rw [(hcopies.copies _ _ _ hlt hp hlen).1] at hanswer
      cases hanswer
    · rw [hloaded]
    · rw [hloaded]
  | output hload hserve hlocate =>
    rw [engine_of_load hpos hwaits hload] at hserve
    have hserved : (lease.service p.engine (p.input.toList.take frame.toNat)).answer = .ok _ :=
      congrArg Prod.fst hserve
    have hleft : (lease.service p.engine (p.input.toList.take frame.toNat)).left = _ :=
      congrArg Prod.snd hserve
    rcases hle.lt_or_eq with hlt | hlast
    · have hkept := hcopies.capacity_eq _ _ (hcopies.copies _ _ _ hlt hp hlen).2.2
      rw [hleft] at hkept
      rw [hlies.output _ hkept] at hlocate
      cases hlocate
    · rw [hlast] at hp
      obtain ⟨fault, hrefused⟩ := hcopies.refuses p.engine _ hp hlen
      rw [hserved] at hrefused
      cases hrefused

end served

end Reframes

end Progress

/-- A scripted engine that neither refuses a frame nor touches what is made of it. -/
theorem ScriptedEngine.processFrame_eq {e : ScriptedEngine} {h : Handle} {output input : UInt32}
    {vad : Sample} {inner : IdentityEngine} (hfail : e.script.failAt ≠ some e.calls)
    (hnegate : e.script.negate = false) (hvads : e.script.vads = [])
    (hinner : e.inner.processFrame h output input = (.ok vad, inner)) :
    e.processFrame h output input = (.ok vad, ⟨inner, e.script, e.calls + 1⟩) := by
  simp only [processFrame, if_neg hfail, hinner, hnegate, hvads]
  rfl

/-- A scripted engine whose script has a failure and nothing else. -/
theorem ScriptedEngine.copiesUntil (script : Script) {n : Nat} (hfail : script.failAt = some n)
    (hnegate : script.negate = false) (hvads : script.vads = []) (hresize : script.resize = none)
    (before : IdentityEngine) (lease : Lease) :
    lease.CopiesUntil before.arena.capacity before.frameSize n fun k (e : ScriptedEngine) =>
      e.script = script ∧ e.calls = k ∧ lease.Held before e.inner where
  frameSize_eq k e he := by
    have hsame : Engine.frameSize e = e.inner.frameSize := by
      change e.frameSize = _
      rw [ScriptedEngine.frameSize, he.1, hresize]
    exact hsame.trans he.2.2.frameSize_eq
  capacity_eq k e he := he.2.2.spans.capacity_eq
  copies k e block hk he hblock := by
    obtain ⟨rfl, rfl, hheld⟩ := he
    have hfed := hheld.write (Or.inl rfl) hblock
    have hcopy := hfed.processFrame_eq
    rw [hheld.read_write (Or.inl rfl) hblock] at hcopy
    have hskip : e.script.failAt ≠ some e.calls := by
      rw [hfail]
      simpa using hk.ne'
    have hserve := processFrame_eq (e := lease.feed e block) hskip hnegate hvads hcopy
    have hleft : (lease.service e block).left = _ := congrArg Prod.snd hserve
    refine ⟨congrArg Prod.fst hserve, ?_, ?_⟩
    · rw [Lease.made, hleft]
      exact hfed.read_write (Or.inr rfl) hblock
    · rw [hleft]
      exact ⟨rfl, rfl, hfed.write (Or.inr rfl) hblock⟩
  refuses e block he hblock := by
    obtain ⟨hscript, rfl, hheld⟩ := he
    have hcalls : (lease.feed e block).script.failAt = some (lease.feed e block).calls :=
      hscript ▸ hfail
    refine ⟨script.failError, ?_⟩
    change ((lease.feed e block).processFrame lease.handle lease.outputSpan.offset
      lease.inputSpan.offset).1 = _
    rw [processFrame, if_pos hcalls, ← hscript]
    rfl

end AudioFraming
