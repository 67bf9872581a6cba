import AudioFraming.Host.Native
import AudioFraming.Proofs.Link.Readback
import AudioFraming.Proofs.Message.Language
import AudioFraming.Proofs.Sizing.Warmup

/-!
# The C interface as a link

A program gets both pointers exactly if its sizes pass their check, and from then on its
calls are calls on a link. Those that pass NULL, an unknown number or a text that is no
message do not reach the link and have fixed answers (`NativeCall.refusal`); which these
are can be told from the calls alone (`NativeCall.linkCall?`), so the session on the link
is known in advance (`session_eq_link`).

A command sent by its number can be posted as a text instead, at any place of a session.
-/

namespace AudioFraming

/-! ## What a program is told by a link -/

namespace Link

variable {σ : Type} [Engine σ]

/-- The answer to a call, in the form in which a program gets it. -/
def answer (l : Link σ) : LinkCall → NativeAnswer
  | .send c => .truth (l.send c).1
  | .post text =>
    match l.post text with
    | .ok (sent, _) => .truth sent
    | .error _ => .truth false
  | .poll => .count l.poll.1.events.length
  | .readback => .readback l.readback
  | .process input buffer => .delivery (l.process input buffer).1
  | .dropControl | .drain | .direct _ | .dropAudio => .nothing

/-- The answers to a session, in their order. -/
def answers (l : Link σ) : List LinkCall → List NativeAnswer
  | [] => []
  | c :: rest => l.answer c :: (l.after c).answers rest

/-- A call drops the side that it is meant to drop, and no other. -/
theorem sides_after (l : Link σ) {c : LinkCall} (hc : c ≠ .dropControl ∧ c ≠ .dropAudio) :
    (l.after c).controlHeld = l.controlHeld ∧ (l.after c).audio.isSome = l.audio.isSome := by
  cases haudio : l.audio with
  | none =>
    refine ⟨?_, by rw [audio_after_of_none haudio]⟩
    cases c with
    | dropControl => exact absurd rfl hc.1
    | process input buffer => simp [after, process_of_none haudio]
    | drain => simp [after, applyCommands_of_none haudio]
    | send command => simp [after, send, haudio]
    | post text =>
      simp only [after, post, send, haudio]
      cases Command.ofText text <;> simp
    | poll =>
      simp only [after]
      split <;> rfl
    | readback | direct | dropAudio => rfl
  | some f =>
    have hturn := takesTurn haudio hc.2
    rw [hturn.controlHeld_eq, hturn.audio_eq]
    refine ⟨?_, rfl⟩
    cases c with
    | dropControl => exact absurd rfl hc.1
    | _ => rfl

end Link

/-! ## Which calls reach the link -/

/-- The pointers that a program has, and has not destroyed yet. -/
structure Pointers where
  control : Bool := true
  audio : Bool := true

namespace NativeCall

/-- The numbers that mean something. -/
def codes : List (UInt32 × Command) := [(0, .stop), (1, .pause), (2, .resume)]

theorem ofCode?_eq_lookup (code : UInt32) : Command.ofCode? code = codes.lookup code := by
  unfold Command.ofCode? codes
  split_ifs with hstop hpause hresume
  · subst hstop
    rfl
  · subst hpause
    rfl
  · subst hresume
    rfl
  · refine (List.lookup_eq_none_iff.mpr fun p hp => ?_).symm
    simp only [List.mem_cons, List.not_mem_nil, or_false] at hp
    rcases hp with rfl | rfl | rfl <;> simpa

/-- Whether the call makes new pointers. -/
def isCreate : NativeCall → Bool
  | .create .. => true
  | _ => false

/-- The answer to a call that does not reach the link. -/
def refusal : NativeCall → NativeAnswer
  | .create .. => .truth false
  | .process _ _ output => .delivery ⟨false, output.getD []⟩
  | .send .. | .post .. => .truth false
  | .poll _ => .count 0
  | .readback _ => .readback { phase := .stopped }
  | .destroyControl _ | .destroyProcessor _ => .nothing

/-- The call on the link, if all pointers that are passed are valid and a command is asked for
where there should be one. -/
def linkCall? (p : Pointers) : NativeCall → Option LinkCall
  | .process held (some input) (some output) =>
    if held ∧ p.audio then some (.process input output) else none
  | .send held code =>
    if held ∧ p.control then (codes.lookup code).map .send else none
  | .post held (some message) =>
    if held ∧ p.control then
      match NativeSession.textOf? message with
      | some text => if (Command.ofText text).isOk then some (.post text) else none
      | none => none
    else none
  | .poll held => if held ∧ p.control then some .poll else none
  | .readback held => if held ∧ p.control then some .readback else none
  | .destroyControl held => if held ∧ p.control then some .dropControl else none
  | .destroyProcessor held => if held ∧ p.audio then some .dropAudio else none
  | _ => none

/-- The pointers after a call. -/
def pointersAfter (p : Pointers) : NativeCall → Pointers
  | .destroyControl held => { p with control := p.control && !held }
  | .destroyProcessor held => { p with audio := p.audio && !held }
  | _ => p

/-- The session on the link that a session of calls comes down to. -/
def linkCalls (p : Pointers) : List NativeCall → List LinkCall
  | [] => []
  | c :: rest => (c.linkCall? p).toList ++ linkCalls (c.pointersAfter p) rest

/-- The answers to a session, given those of the link in their order. -/
def weave (p : Pointers) : List NativeCall → List NativeAnswer → List NativeAnswer
  | [], _ => []
  | c :: rest, answers =>
    match c.linkCall? p with
    | some _ => answers.headD c.refusal :: weave (c.pointersAfter p) rest answers.tail
    | none => c.refusal :: weave (c.pointersAfter p) rest answers

end NativeCall

namespace NativeSession

/-- The answers to a session of calls in their order, and the session after it. -/
def run (s : NativeSession) : List NativeCall → List NativeAnswer × NativeSession
  | [] => ([], s)
  | c :: rest => ((s.call c).session.run rest).map ((s.call c).answer :: ·) id

/-- The program has pointers to the sides of the link that have not been dropped. -/
structure Holds (s : NativeSession) (p : Pointers) (l : Link IdentityEngine) : Prop where
  link_eq : s.link = some l
  control_eq : l.controlHeld = p.control
  audio_eq : l.audio.isSome = p.audio

section step

variable {s : NativeSession} {p : Pointers} {l : Link IdentityEngine}

theorem Holds.control (h : s.Holds p l) (held : Bool) :
    s.control held = if held ∧ p.control then some l else none := by
  simp [NativeSession.control, h.link_eq, Option.filter, h.control_eq]

theorem Holds.audio (h : s.Holds p l) (held : Bool) :
    s.audio held = if held ∧ p.audio then some l else none := by
  simp [NativeSession.audio, h.link_eq, Option.filter, h.audio_eq]

/-- A text is posted if it is a message, and refused if it is none. -/
theorem post_cases (s : NativeSession) {l : Link IdentityEngine} (hheld : l.controlHeld = true)
    (text : String) :
    (Command.ofText text).isOk = true ∧ (s.post l text).answer = l.answer (.post text) ∧
        (s.post l text).session.link = some (l.after (.post text)) ∨
      (Command.ofText text).isOk = false ∧ (s.post l text).answer = .truth false ∧
        (s.post l text).session = s := by
  cases hmessage : Command.ofText text with
  | error fault => simp [NativeSession.post, Link.post, hmessage, Except.isOk, Except.toBool]
  | ok c =>
    simp [NativeSession.post, Link.post, Link.answer, Link.after, hmessage, hheld, Except.isOk,
      Except.toBool]

/-- A call that reaches the link is answered by it, and any other changes nothing. -/
theorem Holds.call (h : s.Holds p l) {c : NativeCall} (hc : c.isCreate = false) :
    match c.linkCall? p with
    | some d => (s.call c).answer = l.answer d ∧ (s.call c).session.link = some (l.after d)
    | none => (s.call c).answer = c.refusal ∧ (s.call c).session = s := by
  cases c with
  | create sizing receiver => cases hc
  | process held input output =>
    by_cases hvalid : held ∧ p.audio
    · cases input <;> cases output <;>
        simp [NativeCall.linkCall?, NativeSession.call, h.audio, hvalid, NativeCall.refusal,
          Link.answer, Link.after]
    · cases input <;> cases output <;>
        simp [NativeCall.linkCall?, NativeSession.call, h.audio, hvalid, NativeCall.refusal]
  | send held code =>
    by_cases hvalid : held ∧ p.control
    · cases hcode : NativeCall.codes.lookup code <;>
        simp [NativeCall.linkCall?, NativeSession.call, h.control, hvalid, hcode,
          NativeCall.ofCode?_eq_lookup, NativeCall.refusal, Link.answer, Link.after, h.control_eq]
    · simp [NativeCall.linkCall?, NativeSession.call, h.control, hvalid, NativeCall.refusal]
  | post held message =>
    by_cases hvalid : held ∧ p.control
    · have hheld : l.controlHeld = true := h.control_eq.trans hvalid.2
      cases message with
      | none => simp [NativeCall.linkCall?, NativeSession.call, NativeCall.refusal]
      | some message =>
        cases htext : textOf? message with
        | none =>
          simp [NativeCall.linkCall?, NativeSession.call, htext, NativeCall.refusal]
        | some text =>
          rcases s.post_cases hheld text with ⟨hok, hpost⟩ | ⟨hok, hpost⟩ <;>
            simpa [NativeCall.linkCall?, NativeSession.call, h.control, hvalid, htext, hok,
              NativeCall.refusal] using hpost
    · cases message <;>
        simp [NativeCall.linkCall?, NativeSession.call, h.control, hvalid, NativeCall.refusal]
  | poll held =>
    by_cases hvalid : held ∧ p.control
    · simp [NativeCall.linkCall?, NativeSession.call, h.control, hvalid, Link.answer, Link.after,
        h.control_eq]
    · simp [NativeCall.linkCall?, NativeSession.call, h.control, hvalid, NativeCall.refusal]
  | readback held =>
    by_cases hvalid : held ∧ p.control
    · simp [NativeCall.linkCall?, NativeSession.call, h.control, hvalid, Link.answer, Link.after,
        h.link_eq]
    · simp [NativeCall.linkCall?, NativeSession.call, h.control, hvalid, NativeCall.refusal,
        absent]
  | destroyControl held =>
    by_cases hvalid : held ∧ p.control
    · simp [NativeCall.linkCall?, NativeSession.call, h.control, hvalid, Link.answer, Link.after]
    · simp [NativeCall.linkCall?, NativeSession.call, h.control, hvalid, NativeCall.refusal]
  | destroyProcessor held =>
    by_cases hvalid : held ∧ p.audio
    · simp [NativeCall.linkCall?, NativeSession.call, h.audio, hvalid, Link.answer, Link.after]
    · simp [NativeCall.linkCall?, NativeSession.call, h.audio, hvalid, NativeCall.refusal]

theorem pointersAfter_of_none {c : NativeCall} (hd : c.linkCall? p = none) :
    c.pointersAfter p = p := by
  obtain ⟨control, audio⟩ := p
  cases c with
  | destroyControl held =>
    cases held <;> cases control <;> simp [NativeCall.linkCall?, NativeCall.pointersAfter] at hd ⊢
  | destroyProcessor held =>
    cases held <;> cases audio <;> simp [NativeCall.linkCall?, NativeCall.pointersAfter] at hd ⊢
  | _ => rfl

/-- Only the calls that destroy a pointer drop a side. -/
theorem ne_drop_of_linkCall? {c : NativeCall} {d : LinkCall} (hd : c.linkCall? p = some d)
    (hcontrol : ∀ held, c ≠ .destroyControl held) (haudio : ∀ held, c ≠ .destroyProcessor held) :
    d ≠ .dropControl ∧ d ≠ .dropAudio := by
  cases c with
  | destroyControl held => exact absurd rfl (hcontrol held)
  | destroyProcessor held => exact absurd rfl (haudio held)
  | _ =>
    unfold NativeCall.linkCall? at hd
    grind [Option.map_eq_some_iff]

/-- The link drops the side whose pointer is destroyed. -/
theorem Holds.sides_after (h : s.Holds p l) {c : NativeCall} {d : LinkCall}
    (hd : c.linkCall? p = some d) :
    (l.after d).controlHeld = (c.pointersAfter p).control ∧
      (l.after d).audio.isSome = (c.pointersAfter p).audio := by
  cases c with
  | destroyControl held =>
    obtain ⟨hvalid, hd⟩ := Option.ite_none_right_eq_some.mp hd
    cases hd
    simp [NativeCall.pointersAfter, Link.after, Link.dropControl, hvalid, h.audio_eq]
  | destroyProcessor held =>
    obtain ⟨hvalid, hd⟩ := Option.ite_none_right_eq_some.mp hd
    cases hd
    simp [NativeCall.pointersAfter, Link.after, Link.dropAudio, hvalid, h.control_eq]
  | _ =>
    obtain ⟨hcontrol, haudio⟩ := l.sides_after (ne_drop_of_linkCall? hd (by simp) (by simp))
    exact ⟨hcontrol.trans h.control_eq, haudio.trans h.audio_eq⟩

/-- A session on the pointers is the session on the link. -/
theorem Holds.run (h : s.Holds p l) {calls : List NativeCall}
    (hcalls : ∀ c ∈ calls, c.isCreate = false) :
    (s.run calls).1 = NativeCall.weave p calls (l.answers (NativeCall.linkCalls p calls)) ∧
      (s.run calls).2.link = some (l.replay (NativeCall.linkCalls p calls)) := by
  induction calls generalizing s p l with
  | nil => exact ⟨rfl, h.link_eq⟩
  | cons c rest ih =>
    have hcall := h.call (hcalls c (List.mem_cons_self ..))
    have hrest := fun d hd => hcalls d (List.mem_cons_of_mem c hd)
    unfold NativeSession.run NativeCall.weave NativeCall.linkCalls
    cases hd : c.linkCall? p with
    | none =>
      rw [hd] at hcall
      obtain ⟨hanswer, hsession⟩ := hcall
      rw [hsession, pointersAfter_of_none hd]
      obtain ⟨hanswers, hlink⟩ := ih h hrest
      exact ⟨congrArg₂ List.cons hanswer hanswers, hlink⟩
    | some d =>
      rw [hd] at hcall
      obtain ⟨hanswer, hlink⟩ := hcall
      obtain ⟨hcontrol, haudio⟩ := h.sides_after hd
      obtain ⟨hanswers, hlink⟩ := ih ⟨hlink, hcontrol, haudio⟩ hrest
      exact ⟨congrArg₂ List.cons hanswer hanswers, hlink⟩

end step

/-! ## Commands by number and by text -/

/-- The calls are the same, or send the same command, one by its number and one by a text. -/
inductive SameCall : NativeCall → NativeCall → Prop
  | refl (c : NativeCall) : SameCall c c
  | text {held : Bool} {code : UInt32} {message : List UInt8} {text : String} {c : Command}
      (hcode : NativeCall.codes.lookup code = some c) (htext : textOf? message = some text)
      (hmessage : Command.ofText text = .ok c) :
      SameCall (.send held code) (.post held (some message))

theorem SameCall.call_eq {c d : NativeCall} (h : SameCall c d) (s : NativeSession) :
    s.call d = s.call c := by
  cases h with
  | refl => rfl
  | @text held code message text c hcode htext hmessage =>
    cases hcontrol : s.control held with
    | none => simp [NativeSession.call, hcontrol]
    | some l =>
      simp [NativeSession.call, hcontrol, NativeCall.ofCode?_eq_lookup, hcode, htext,
        NativeSession.post, Link.post, hmessage]

theorem run_eq_of_sameCall {calls others : List NativeCall} (h : List.Forall₂ SameCall calls others)
    (s : NativeSession) : s.run others = s.run calls := by
  induction h generalizing s with
  | nil => rfl
  | cons hcall _ ih => rw [run, run, hcall.call_eq, ih]

/-- The bytes of the usual text of a command, with the NUL at its end. -/
def messageOf (c : Command) : List UInt8 := c.toText.toUTF8.data.toList ++ [0]

theorem textOf?_messageOf (c : Command) : textOf? (messageOf c) = some c.toText := by
  cases c <;> decide +kernel

end NativeSession

/-! ## Creation -/

namespace Framer

variable {σ : Type} [Engine σ]

theorem started_of_check_error {sizing : Sizing} {s : σ} {fault : SetupError}
    (hcheck : sizing.check (Engine.frameSize s) = .error fault) :
    (started sizing s).result = .error fault := by
  simp [started, start, new, engineFrame, hcheck]

/-- Sizes that pass their check are the only thing that a start needs beside a lease. -/
theorem started_of_check_ok {sizing : Sizing} {s : σ} {lease : Lease}
    (hcheck : sizing.check (Engine.frameSize s) = .ok ())
    (htake : (Lease.take s (Engine.frameSize s).toNat).1 = .ok lease) :
    (started sizing s).result = .ok () ∧ (started sizing s).framer.phase = .running := by
  have hfits := Sizing.fits_of_check hcheck
  have hcapacity : 0 < sizing.ringCapacity.toNat :=
    Nat.lt_of_lt_of_le hfits.frame_pos hfits.frame_le_ringCapacity
  cases hleased : Lease.take s (Engine.frameSize s).toNat with
  | mk taken engine =>
    rw [hleased] at htake
    dsimp only at htake
    subst htake
    simp [started, start, new, engineFrame, hcheck, hcapacity, hleased]

end Framer

namespace NativeSession

/-- The memory of the engine has room for two frames, and an instance can be made. -/
theorem take_engine : (Lease.take engine (Engine.frameSize engine).toNat).1 =
    .ok ⟨⟨0⟩, ⟨0, 480⟩, ⟨1920, 480⟩⟩ := by
  decide +kernel

/-- A creation is refused for the reason that the check of the sizes gives, and for no other. -/
theorem create_of_check_error (s : NativeSession) {sizing : NativeSizing} {e : SetupError}
    (hcheck : (sizing.toSizing 480).check 480 = .error e) :
    s.create sizing = ⟨s, .truth false, [⟨.error, s!"denoise_create: {e.message}"⟩]⟩ := by
  have hresult := Framer.started_of_check_error (s := engine) hcheck
  unfold create
  dsimp only
  rw [show engine.frameSize = 480 from rfl, hresult]

theorem create_of_check_ok (s : NativeSession) {sizing : NativeSizing}
    (hcheck : (sizing.toSizing 480).check 480 = .ok ()) :
    let f := (Framer.started (sizing.toSizing 480) engine).framer
    f.phase = .running ∧ (s.create sizing).session = { s with link := some (Link.ofFramer f) } ∧
      (s.create sizing).answer = .truth true := by
  obtain ⟨hresult, hphase⟩ := Framer.started_of_check_ok hcheck take_engine
  refine ⟨hphase, ?_⟩
  unfold create
  dsimp only
  rw [show engine.frameSize = 480 from rfl, hresult]
  exact ⟨rfl, rfl⟩

/-- With a place for the second pointer a program gets both pointers if its sizes pass their check,
and otherwise neither, for the reason that the check gives. All calls on the pointers are calls on
the link between the two sides, up to those that are refused, and a command can be sent by its
number or by a text. -/
theorem session_eq_link (s : NativeSession) (sizing : Option NativeSizing)
    {calls : List NativeCall} (hcalls : ∀ c ∈ calls, c.isCreate = false) :
    let size := (sizing.getD {}).toSizing 480
    let created := s.call (.create sizing true)
    match size.check 480 with
    | .ok () =>
      let l := Link.ofFramer (Framer.started size engine).framer
      created.answer = .truth true ∧ created.session.link = some l ∧
        l.readback.phase = .running ∧
        (created.session.run calls).1 =
          NativeCall.weave {} calls (l.answers (NativeCall.linkCalls {} calls)) ∧
        (created.session.run calls).2.link = some (l.replay (NativeCall.linkCalls {} calls)) ∧
        ∀ others, List.Forall₂ SameCall calls others →
          created.session.run others = created.session.run calls
    | .error e =>
      created = ⟨s, .truth false, [⟨.error, s!"denoise_create: {e.message}"⟩]⟩ := by
  intro size created
  cases hcheck : size.check 480 with
  | error e => exact s.create_of_check_error hcheck
  | ok u =>
    obtain ⟨hphase, hsession, hanswer⟩ := s.create_of_check_ok hcheck
    have hlink : created.session.link = some _ := congrArg link hsession
    have hholds : created.session.Holds {} _ := ⟨hlink, rfl, rfl⟩
    obtain ⟨hanswers, hreplay⟩ := hholds.run hcalls
    exact ⟨hanswer, hlink, hphase, hanswers, hreplay,
      fun others h => run_eq_of_sameCall h created.session⟩

/-- The usual sizes, and a session in which a text takes the place of a number. The second number
means nothing, and the last command finds no audio side. -/
theorem session_eq_link_of_text :
    let s : NativeSession := { complaint := fun _ => "expected value at line 1 column 1" }
    (∀ c ∈ [NativeCall.send true 1, .send true 7, .destroyProcessor true, .send true 0],
        c.isCreate = false) ∧
      ((s.call (.create none true)).session.run
          [.post true (some (messageOf .pause)), .send true 7, .destroyProcessor true,
            .send true 0] =
        (s.call (.create none true)).session.run
          [.send true 1, .send true 7, .destroyProcessor true, .send true 0]) := by
  intro s
  have hcalls : ∀ c ∈ [NativeCall.send true 1, .send true 7, .destroyProcessor true, .send true 0],
      c.isCreate = false := by
    decide
  have hcheck : ((Option.getD none {} : NativeSizing).toSizing 480).check 480 = .ok () := by
    decide +kernel
  have hpause : SameCall (.send true 1) (.post true (some (messageOf .pause))) :=
    .text rfl (textOf?_messageOf .pause) (Command.ofText_toText .pause)
  have hlink := session_eq_link s none hcalls
  dsimp only at hlink
  rw [hcheck] at hlink
  obtain ⟨-, -, -, -, -, hsame⟩ := hlink
  exact ⟨hcalls, hsame _ (.cons hpause (.cons (.refl _) (.cons (.refl _) (.cons (.refl _) .nil))))⟩

end NativeSession

end AudioFraming
