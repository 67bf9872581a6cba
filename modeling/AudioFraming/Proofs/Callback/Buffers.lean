import AudioFraming.Proofs.Callback.Blocks
import AudioFraming.Proofs.Link.Session

/-!
# What a buffer held

A callback gets its buffer as the host left it, and some callbacks let parts of it through. A
framer does not, whichever way a callback ends, and neither does a link while it has an audio
side (`Blind`). A signal can then be rendered in parts (`render_append`), although each part
starts with a silent buffer and a rendering goes on with the one that it has.
-/

namespace AudioFraming

namespace SampleRing

/-- Only the length of the destination tells what becomes of the ring. -/
theorem pull_congr (r : SampleRing) {destination destination' : List Sample}
    (hlen : destination.length = destination'.length) :
    (r.pull destination).count = (r.pull destination').count ∧
      (r.pull destination).ring = (r.pull destination').ring ∧
      ((r.pull destination).count ≠ 0 →
        (r.pull destination).block = (r.pull destination').block) := by
  unfold pull
  rw [hlen]
  split_ifs
  · exact ⟨rfl, rfl, fun h => absurd rfl h⟩
  · exact ⟨rfl, rfl, fun _ => rfl⟩
  · exact ⟨rfl, rfl, fun h => absurd rfl h⟩

end SampleRing

namespace AudioCallback

variable {γ : Type} [AudioCallback γ]

/-- What the callbacks of a rendering answer, one after the other. -/
def answers : List (List Sample) → List Sample → γ → List Delivery
  | [], _, _ => []
  | input :: rest, buffer, c =>
    let (delivery, c) := call c input buffer
    delivery :: if delivery.keepGoing then answers rest delivery.block c else []

/-- What a buffer holds makes no difference to a callback, in some states that it never leaves. -/
structure Blind (P : γ → Prop) : Prop where
  call_congr : ∀ c input buffer buffer', P c → buffer.length = buffer'.length →
    call c input buffer = call c input buffer'
  call_keeps : ∀ c input buffer, P c → P (call c input buffer).2

section blind

variable {P : γ → Prop} (h : Blind P)
include h

/-- A rendering may go on with any other buffer of the same length. -/
theorem renderBlocks_congr {c : γ} (hc : P c) {buffer buffer' : List Sample}
    (hlen : buffer.length = buffer'.length) (inputs : List (List Sample)) :
    renderBlocks inputs buffer c = renderBlocks inputs buffer' c := by
  cases inputs with
  | nil => rfl
  | cons input rest => rw [renderBlocks, renderBlocks, h.call_congr c input _ _ hc hlen]

theorem renderBlocks_append (inputs later : List (List Sample)) {buffer buffer' : List Sample}
    (hlen : buffer.length = buffer'.length) {c : γ} (hc : P c)
    (hgo : ∀ d ∈ answers inputs buffer c, d.keepGoing = true) :
    renderBlocks (inputs ++ later) buffer c =
      let first := renderBlocks inputs buffer c
      let second := renderBlocks later buffer' first.2
      (first.1 ++ second.1, second.2) := by
  induction inputs generalizing buffer c with
  | nil =>
    rw [List.nil_append, renderBlocks_congr h hc hlen]
    rfl
  | cons input rest ih =>
    have hlen' := (length_call c input buffer).trans hlen
    have hc' := h.call_keeps c input buffer hc
    rcases hcall : call c input buffer with ⟨delivery, c'⟩
    rw [hcall] at hlen' hc'
    simp only [answers, hcall, List.mem_cons, forall_eq_or_imp] at hgo
    obtain ⟨hone, hrest⟩ := hgo
    rw [if_pos hone] at hrest
    simp only [List.cons_append, renderBlocks, hcall, if_pos hone, ih hlen' hc' hrest,
      List.append_assoc]

/-- Rendering a signal goes on where rendering its first blocks ends. -/
theorem render_append {c : γ} (hc : P c) {quantum : Nat} (hpos : 0 < quantum)
    {signal : List Sample} (hdvd : quantum ∣ signal.length) (later : List Sample)
    (hgo : ∀ d ∈ answers (blocks quantum signal) (Sample.silence quantum) c, d.keepGoing = true) :
    render c (signal ++ later) quantum =
      let first := render c signal quantum
      let second := render first.2 later quantum
      (first.1 ++ second.1, second.2) := by
  unfold render
  rw [blocks_append hpos hdvd, renderBlocks_append h _ _ rfl hc hgo]

end blind

end AudioCallback

namespace Framer

open AudioCallback

variable {σ : Type}

theorem deliver_congr (f : Framer σ) (lease : Lease) (p : Progress σ)
    {buffer buffer' : List Sample} (hlen : buffer.length = buffer'.length) :
    f.deliver lease p buffer = f.deliver lease p buffer' := by
  obtain ⟨hcount, hring, hblock⟩ := p.output.pull_congr hlen
  have hnil : buffer = [] ↔ buffer' = [] := by
    rw [← List.length_eq_zero_iff, hlen, List.length_eq_zero_iff]
  unfold deliver
  simp only [← hcount, ← hring, ← hlen, ne_eq, ← hnil]
  split_ifs with hleft hmissed
  · rfl
  · rfl
  · by_cases hzero : (p.output.pull buffer).count = 0
    · -- Nothing is asked for: both buffers are empty.
      have hempty : buffer = [] := by_contra fun hne => hmissed ⟨hzero, hne⟩
      rw [hempty, hnil.mp hempty]
    · rw [hblock hzero]

variable [Engine σ]

theorem quantum_congr (f : Framer σ) (input : List Sample) {buffer buffer' : List Sample}
    (hlen : buffer.length = buffer'.length) :
    f.quantum input buffer = f.quantum input buffer' := by
  unfold quantum run
  simp only [hlen, deliver_congr _ _ _ hlen]

theorem blind : Blind fun _ : Framer σ => True where
  call_congr f input buffer buffer' _ hlen := by
    change ((f.quantum input buffer).answer, (f.quantum input buffer).framer) = _
    rw [f.quantum_congr input hlen]
    rfl
  call_keeps _ _ _ _ := trivial

end Framer

namespace Link

open AudioCallback

variable {σ : Type} [Engine σ]

theorem process_congr {l : Link σ} (h : l.audio.isSome) (input : List Sample)
    {buffer buffer' : List Sample} (hlen : buffer.length = buffer'.length) :
    l.process input buffer = l.process input buffer' := by
  obtain ⟨f, haudio⟩ := Option.isSome_iff_exists.mp h
  have hcongr := (f.replay l.waiting).quantum_congr input hlen
  have hafter : f.replay (l.waiting ++ [.quantum input buffer]) =
      f.replay (l.waiting ++ [.quantum input buffer']) := by
    rw [Framer.replay_append, Framer.replay_append]
    exact congrArg Outcome.framer hcongr
  have hevents : f.eventsDuring (l.waiting ++ [.quantum input buffer]) =
      f.eventsDuring (l.waiting ++ [.quantum input buffer']) := by
    rw [Framer.eventsDuring_append, Framer.eventsDuring_append]
    exact congrArg (fun o => f.eventsDuring l.waiting ++ (o.events ++ [])) hcongr
  rw [process_eq haudio, process_eq haudio]
  dsimp only
  rw [hcongr, hafter, hevents]

/-- The audio side of a link stays while its callbacks are made. -/
theorem blind : Blind fun l : Link σ => l.audio.isSome where
  call_congr l input _ _ h hlen := l.process_congr h input hlen
  call_keeps l input buffer h := by
    obtain ⟨f, haudio⟩ := Option.isSome_iff_exists.mp h
    change (l.process input buffer).2.audio.isSome
    rw [process_eq haudio]
    simp

end Link

namespace AudioCallback

variable {σ : Type} [Engine σ]

/-- A framer does the same whatever a buffer of a given length holds: the same samples, events and
answer, and the same state to go on from. So does a link with an audio side, whatever commands wait
in it. A signal can therefore be rendered in parts over either, at any whole block, unless the
callbacks end before. -/
theorem buffers_forgotten :
    (∀ (f : Framer σ) (input buffer buffer' : List Sample), buffer.length = buffer'.length →
      f.quantum input buffer = f.quantum input buffer') ∧
    (∀ (l : Link σ) (input buffer buffer' : List Sample), l.audio.isSome →
      buffer.length = buffer'.length → l.process input buffer = l.process input buffer') ∧
    (∀ (f : Framer σ) (quantum : Nat) (signal later : List Sample), 0 < quantum →
      quantum ∣ signal.length →
      (∀ d ∈ answers (blocks quantum signal) (Sample.silence quantum) f, d.keepGoing = true) →
      render f (signal ++ later) quantum =
        let first := render f signal quantum
        let second := render first.2 later quantum
        (first.1 ++ second.1, second.2)) ∧
    ∀ (l : Link σ) (quantum : Nat) (signal later : List Sample), l.audio.isSome → 0 < quantum →
      quantum ∣ signal.length →
      (∀ d ∈ answers (blocks quantum signal) (Sample.silence quantum) l, d.keepGoing = true) →
      render l (signal ++ later) quantum =
        let first := render l signal quantum
        let second := render first.2 later quantum
        (first.1 ++ second.1, second.2) :=
  ⟨fun f input _ _ => f.quantum_congr input, fun _ input _ _ h => Link.process_congr h input,
    fun _ _ _ later hpos hdvd => render_append Framer.blind trivial hpos hdvd later,
    fun _ _ _ later h hpos hdvd => render_append Link.blind h hpos hdvd later⟩

/-- A block that is too long for a framer, a link in which a command waits, and a signal rendered in
two parts over both. -/
theorem buffers_forgotten_of_failure :
    let f := (Framer.started ⟨48000, 2, 2, 2⟩ (IdentityEngine.ofMemory 2 4)).framer
    let l := ((Link.ofFramer f).send .pause).2
    (f.quantum (Sample.silence 9) [.one, .one]).framer.phase = .bypassed ∧
      f.quantum (Sample.silence 9) [.one, .one] =
        f.quantum (Sample.silence 9) [.zero, .zero] ∧
      l.process [.one] [.one, .one] = l.process [.one] [.zero, .zero] ∧
      (render f [.one, .zero, .one, .one, .zero] 2).1 =
        (render f [.one, .zero, .one, .one] 2).1 ++
          (render (render f [.one, .zero, .one, .one] 2).2 [.zero] 2).1 ∧
      (render l [.one, .zero, .one] 2).1 =
        (render l [.one, .zero] 2).1 ++ (render (render l [.one, .zero] 2).2 [.one] 2).1 := by
  intro f l
  have hblocks : blocks 2 [.one, .zero, .one, .one] = [[.one, .zero], [.one, .one]] := by
    simp [blocks, Sample.silence]
  have hblocks' : blocks 2 [.one, .zero] = [[.one, .zero]] := by simp [blocks, Sample.silence]
  have hgo : ∀ d ∈ answers (blocks 2 [.one, .zero, .one, .one]) (Sample.silence 2) f,
      d.keepGoing = true := by
    rw [hblocks]
    decide +kernel
  have hgo' : ∀ d ∈ answers (blocks 2 [.one, .zero]) (Sample.silence 2) l,
      d.keepGoing = true := by
    rw [hblocks']
    decide +kernel
  obtain ⟨hframer, hlink, hparts, hparts'⟩ := @buffers_forgotten IdentityEngine _
  refine ⟨by decide +kernel, hframer f _ _ _ rfl, hlink l _ _ _ rfl rfl, ?_, ?_⟩
  · exact congrArg Prod.fst (hparts f 2 [.one, .zero, .one, .one] [.zero] (by decide) (by decide)
      hgo)
  · exact congrArg Prod.fst (hparts' l 2 [.one, .zero] [.one] rfl (by decide) (by decide) hgo')

end AudioCallback

end AudioFraming
